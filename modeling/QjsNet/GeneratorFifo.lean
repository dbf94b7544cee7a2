import QjsNet.GeneratorChunks

/- A generator that is written to, as a channel of chunks.

   Runs of writes with bytes and of reads, in any order. Without buffering the chunks
   come out one by one in the order they were written (`ChannelInv.fifo`). With
   buffering the same bytes come out in pieces of the size that was set
   (`generator_rechunks`). In both, no read waits for what could be delivered, except
   inside the read that starts the executor, which looks at the queue afterwards.
   The callbacks of chunks make no calls here; `GeneratorReentry` has those that do.

   The executor may write and read while it runs; a return of an executor that does
   not run is no step. -/
namespace QjsNet

/-- What is written has bytes. -/
structure Chunk where
  data : Bytes
  ne : data ≠ []
  deriving DecidableEq, Repr

inductive ChannelCall where
  | write (chunk : Chunk) (callback : Option Nat)
  | next (arg : JSValue)
  | executorReturns
  deriving DecidableEq, Repr

/-- A generator, the chunks that were written to it, and whether the last call was the read that
starts the executor: that call has not returned. -/
structure ChannelState where
  api : ApiState
  written : List Bytes
  starting : Bool
  deriving DecidableEq, Repr

def ChannelState.new (blockFn : BlockFn) (executor chunkSize : Option Nat) : ChannelState :=
  ⟨.new (.new blockFn (executor.elim .undefined .function) chunkSize), [], false⟩

def channelStep (s : ChannelState) : ChannelCall → Option ChannelState
  | .write chunk callback => do
    let api ← apiStep s.api (.write chunk.data callback)
    some ⟨api, s.written ++ [chunk.data], false⟩
  | .next arg => do
    let api ← apiStep s.api (.next arg)
    some ⟨api, s.written, s.api.gen.executor.isFunction⟩
  | .executorReturns =>
    if s.api.running then do
      let api ← apiStep s.api .executorReturns
      some ⟨api, s.written, false⟩
    else some s

variable {gen gen' : Generator} {pushed asked : List Nat} {f : BlockFn} {mode : Option Nat}
  {accepted : List Bytes} {d : Bytes}

/-- Every queued chunk has bytes. -/
def Filled (gen : Generator) : Prop := ∀ d ∈ itemsData gen.queue.items, d ≠ []

structure ChannelInv (f : BlockFn) (mode : Option Nat) (s : ChannelState) : Prop where
  push : PushInv s.api.gen []
  pushed : s.api.pushed = []
  chunks : ChunkInv f mode s.api.gen [] s.api.asked s.written
  size : ∀ c, mode = some c → 0 < c
  written : ∀ d ∈ s.written, d ≠ []
  filled : Filled s.api.gen
  drained : s.starting = false → Drained s.api.gen

theorem Filled.delivers {fns : Nat → Prop} {k : Nat} (h : Filled gen)
    (hk : Delivers fns gen gen' k) : Filled gen' := by
  intro d hd
  unfold itemsData at hd
  rw [hk.items, List.map_drop] at hd
  exact h d (List.mem_of_mem_drop hd)

/-- A block with bytes can be put into the queue, and leaves no item without. -/
theorem ChunkInv.enqueueBlock_filled (h : ChunkInv f mode gen pushed asked accepted)
    (hsize : ∀ c, mode = some c → 0 < c) (hfilled : Filled gen) (hd : d ≠ [])
    (callback : JSValue) :
    ∃ gen' ret, QjsNet.enqueueBlock gen (blockCopy d) callback = some (gen', ret) ∧
      Filled gen' := by
  have hc : gen.buffering = true → 0 < gen.chunkSize := by
    intro hbuf
    have hsetting := h.setting
    cases mode with
    | none =>
      rw [hsetting.1] at hbuf
      cases hbuf
    | some c =>
      rw [hsetting.2]
      exact hsize c rfl
  obtain ⟨gen', ret, heq⟩ := enqueueBlock_total hc (blockCopy d) callback
  obtain ⟨q, rfl, hseparate, hbuffered⟩ := enqueueBlock_data h.isOpen h.separate heq
  refine ⟨_, ret, heq, ?_⟩
  intro b hb
  rw [setQueue_queue] at hb
  cases hbuf : gen.buffering with
  | false =>
    rw [hseparate hbuf] at hb
    rcases List.mem_append.1 hb with hb | hb
    · exact hfilled b hb
    · exact List.mem_singleton.1 hb ▸ hd
  | true =>
    obtain ⟨cut, hq, _, _, hne⟩ := hbuffered hbuf
    rw [hq] at hb
    rcases List.mem_append.1 hb with hb | hb
    · exact hfilled b (List.dropLast_subset _ hb)
    · exact hne hd b hb

/-- A write never fails, and leaves the generator drained. -/
theorem ChunkInv.write_filled (h : ChunkInv f mode gen pushed asked accepted)
    (hsize : ∀ c, mode = some c → 0 < c) (hfilled : Filled gen) (hd : d ≠ [])
    (callback : Option Nat) :
    ∃ gen' ret, generatorWrite gen d (callbackArg callback) = some (gen', ret) ∧ Filled gen' ∧
      Drained gen' := by
  unfold generatorWrite
  split
  · next hdirect =>
    obtain ⟨_, _, hitems, hne⟩ := direct_iff.1 hdirect
    obtain ⟨rd, reads, hreads⟩ := List.exists_cons_of_ne_nil hne
    refine ⟨_, _, rfl, ?_, Or.inr ?_⟩
    · simp only [iteratorYield_cons hreads]
      exact hfilled
    · intro i hi
      simp only [iteratorYield_cons hreads] at hi
      have hhead : gen.queue.items.head? = some i := hi
      rw [hitems] at hhead
      cases hhead
  · obtain ⟨gen₁, ret, heq, hfilled₁⟩ :=
      h.enqueueBlock_filled hsize hfilled hd (callbackArg callback)
    have h₁ := h.enqueueBlock callbackArg_function heq
    refine ⟨(QjsNet.writeLoop gen₁.iterator.reads.length gen₁).addWritten ret, ret, ?_, ?_, ?_⟩
    · simp only [heq, Option.bind_eq_bind, Option.bind_some]
    · have hloop : Filled (QjsNet.writeLoop gen₁.iterator.reads.length gen₁) :=
        hfilled₁.delivers (writeLoop_full _ gen₁ h₁.isOpen h₁.api.unrefs rfl)
      exact hloop
    · have hloop : Drained (QjsNet.writeLoop gen₁.iterator.reads.length gen₁) :=
        h₁.writeLoop_drained
      exact hloop

theorem channelStep_inv {s : ChannelState} (h : ChannelInv f mode s) (c : ChannelCall) :
    ∃ s', channelStep s c = some s' ∧ ChannelInv f mode s' := by
  cases c with
  | write chunk callback =>
    obtain ⟨gen', ret, heq, hfilled, hdrained⟩ :=
      h.chunks.write_filled h.size h.filled chunk.ne callback
    obtain ⟨hapi, hserves⟩ := h.push.api.write heq
    have hchunks := h.chunks.write (fun _ => chunk.ne) heq
    refine ⟨⟨{ s.api with gen := gen' }, s.written ++ [chunk.data], false⟩, ?_, ?_⟩
    · simp only [channelStep, apiStep, heq, Option.bind_eq_bind, Option.bind_some]
    · refine ⟨h.push.serves hserves hapi, h.pushed, hchunks, h.size, ?_, hfilled, fun _ => hdrained⟩
      intro d hd
      rcases List.mem_append.1 hd with hd | hd
      · exact h.written d hd
      · exact List.mem_singleton.1 hd ▸ chunk.ne
  | next arg =>
    have hbegin := nextBegin_ask h.chunks.going arg
    have hask := h.chunks.ask List.not_mem_nil arg
    have hpush₁ := h.push.serves (serves_ask s.api.gen arg) hask.api
    obtain ⟨hpush₂, _⟩ := hpush₁.resume arg
    have hresume := hask.resume hpush₁ arg
    have hfilled : Filled ((s.api.gen.ask arg).resume arg) := by
      unfold Filled Generator.queue
      rw [(resume_iterator _ arg).2]
      exact h.filled
    cases hexec : s.api.gen.executor.isFunction with
    | true =>
      refine ⟨_, Option.bind_eq_some_iff.2 ⟨_, apiStep_next_starts hbegin hexec, rfl⟩, ?_⟩
      refine ⟨hpush₂, h.pushed, hresume, h.size, h.written, hfilled, ?_⟩
      intro hn
      rw [hexec] at hn
      cases hn
    | false =>
      obtain ⟨hapi, hserves⟩ := hpush₂.api.nextEnd
      have hend : Filled (generatorNextEnd ((s.api.gen.ask arg).resume arg)) := by
        rw [hresume.api.nextEnd_going hresume.going]
        exact hfilled.delivers (updateLoop_ready _ _ hresume.isOpen hresume.api.unrefs rfl).1
      refine ⟨_, Option.bind_eq_some_iff.2 ⟨_, apiStep_next hbegin hexec, rfl⟩, ?_⟩
      exact ⟨hpush₂.serves hserves hapi, h.pushed, hresume.nextEnd, h.size, h.written, hend,
        fun _ => hresume.nextEnd_drained⟩
  | executorReturns =>
    cases hrunning : s.api.running with
    | false => exact ⟨s, by simp [channelStep, hrunning], h⟩
    | true =>
      obtain ⟨hapi, hserves⟩ := h.push.api.nextEnd
      have hend : Filled (generatorNextEnd s.api.gen) := by
        rw [h.chunks.api.nextEnd_going h.chunks.going]
        exact h.filled.delivers
          (updateLoop_ready _ _ h.chunks.isOpen h.chunks.api.unrefs rfl).1
      refine ⟨⟨{ s.api with gen := generatorNextEnd s.api.gen, running := false }, s.written,
        false⟩, ?_, ?_⟩
      · simp [channelStep, apiStep, hrunning]
      · exact ⟨h.push.serves hserves hapi, h.pushed, h.chunks.nextEnd, h.size, h.written, hend,
          fun _ => h.chunks.nextEnd_drained⟩

theorem channelInv_new (f : BlockFn) (executor chunkSize : Option Nat)
    (hsize : ∀ c, chunkSize = some c → 0 < c % 2 ^ 32) :
    ChannelInv f (chunkSize.map (· % 2 ^ 32)) (.new f executor chunkSize) := by
  have hitems : (ChannelState.new f executor chunkSize).api.gen.queue.items = [] := by
    cases chunkSize <;> rfl
  refine ⟨pushInv_new f executor chunkSize, rfl, chunkInv_new f _ chunkSize, ?_,
    fun _ hd => absurd hd List.not_mem_nil, ?_, fun _ => Or.inr ?_⟩
  · intro c hc
    obtain ⟨n, hn, rfl⟩ := Option.map_eq_some_iff.1 hc
    exact hsize n hn
  · intro d hd
    rw [hitems] at hd
    cases hd
  · intro i hi
    rw [hitems] at hi
    cases hi

/-! ## What the reads get -/

theorem Filled.blocks (h : Filled gen) :
    gen.queue.items.map (·.block) = (itemsData gen.queue.items).map some := by
  unfold itemsData
  rw [List.map_map]
  refine List.map_congr_left ?_
  intro i hi
  have hdata := h i.block.data (List.mem_map.2 ⟨i, hi, rfl⟩)
  cases hblk : i.block with
  | none => exact absurd (by rw [hblk]; rfl) hdata
  | some d =>
    rw [Function.comp_apply, hblk]
    rfl

theorem ChannelInv.delivered {s : ChannelState} (h : ChannelInv f mode s) :
    ∃ delivered, s.api.gen.ctx.settlements.map (·.2) = delivered.map f.answer ∧
      s.api.gen.ctx.settlements.map (·.1) ++ s.api.gen.iterator.waiting = s.api.asked ∧
      Fits mode s.written delivered (itemsData s.api.gen.queue.items) := by
  obtain ⟨delivered, hholds, hfits⟩ := h.chunks.chunks
  have hall : s.api.gen.answers [] = s.api.gen.ctx.settlements :=
    List.filter_eq_self.2 fun e _ => by simp
  refine ⟨delivered, ?_, ?_, hfits⟩
  · rw [← hall, hholds.answers, h.chunks.blockFn]
  · rw [← hall]
    exact hholds.asked

/-- The chunks that were delivered in the order of the reads and the chunks that are queued are the
ones that were written, and no read waits while a chunk is queued. -/
def Fifo (f : BlockFn) (s : ChannelState) : Prop :=
  ∃ delivered queued, delivered ++ queued = s.written ∧
    s.api.gen.ctx.settlements.map (·.2) = delivered.map f.answer ∧
    s.api.gen.ctx.settlements.map (·.1) ++ s.api.gen.iterator.waiting = s.api.asked ∧
    s.api.gen.queue.items.map (·.block) = queued.map some ∧
    (s.starting = false →
      ¬ (s.api.gen.iterator.reads ≠ [] ∧ s.api.gen.queue.items ≠ []))

theorem ChannelInv.fifo {s : ChannelState} (h : ChannelInv f none s) : Fifo f s := by
  obtain ⟨delivered, hanswers, hasked, hfits⟩ := h.delivered
  refine ⟨delivered, _, hfits, hanswers, hasked, h.filled.blocks, ?_⟩
  intro hstarting hboth
  obtain ⟨hreads, hitems⟩ := hboth
  rcases h.drained hstarting with hnil | hready
  · exact hreads hnil
  · obtain ⟨i, items, heq⟩ := List.exists_cons_of_ne_nil hitems
    have hi := hready i (by rw [heq]; rfl)
    have hsetting : s.api.gen.buffering = false := h.chunks.setting.1
    simp [Generator.ready, hsetting] at hi

/-- **Bytes come out in pieces of the size.** In every run of writes and reads on a buffering
generator, what was delivered and what is queued are the bytes that were written; what was
delivered has the size, so has what is queued but for the last piece, and no read waits while the
first piece has the size. -/
theorem generator_rechunks (blockFn : BlockFn) (executor : Option Nat) (c : Nat) (hc : 1 ≤ c)
    (hlt : c < 2 ^ 32) (calls : List ChannelCall) :
    ∃ s, PartialRun.run channelStep (.new blockFn executor (some c)) calls = some s ∧
      ∃ delivered queued : List Bytes, delivered.flatten ++ queued.flatten = s.written.flatten ∧
        (∀ d ∈ delivered, d.length = c) ∧
        (∀ d ∈ queued.dropLast, d.length = c) ∧ (∀ d ∈ queued, 1 ≤ d.length ∧ d.length ≤ c) ∧
        s.api.gen.ctx.settlements.map (·.2) = delivered.map blockFn.answer ∧
        s.api.gen.ctx.settlements.map (·.1) ++ s.api.gen.iterator.waiting = s.api.asked ∧
        s.api.gen.queue.items.map (·.block) = queued.map some ∧
        (s.starting = false →
          ¬ (s.api.gen.iterator.reads ≠ [] ∧ ∃ d, queued.head? = some d ∧ d.length = c)) := by
  have hmod : c % 2 ^ 32 = c := Nat.mod_eq_of_lt hlt
  have hnew := channelInv_new blockFn executor (some c) fun n hn => by
    obtain rfl := Option.some.inj hn
    rw [hmod]
    exact hc
  rw [Option.map_some, hmod] at hnew
  obtain ⟨s, hrun, h⟩ := PartialRun.run_total (fun _ c h => channelStep_inv h c) calls hnew
  obtain ⟨delivered, hanswers, hasked, hdelivered, hpieces, hbytes⟩ := h.delivered
  refine ⟨s, hrun, delivered, _, hbytes, hdelivered, hpieces.full, ?_, hanswers, hasked,
    h.filled.blocks, ?_⟩
  · intro d hd
    exact ⟨List.length_pos_iff.2 (h.filled d hd), hpieces.le d hd⟩
  · intro hstarting hboth
    obtain ⟨hreads, d, hd, hlen⟩ := hboth
    rcases h.drained hstarting with hnil | hready
    · exact hreads hnil
    · unfold itemsData at hd
      rw [List.head?_map] at hd
      obtain ⟨i, hi, rfl⟩ := Option.map_eq_some_iff.1 hd
      have hshort := hready i hi
      have hsize : s.api.gen.chunkSize = c := h.chunks.setting.2
      simp [Generator.ready, hsize, ByteBlock.size, hlen] at hshort

/-- Five bytes in pairs: two reads get four of them. -/
theorem five_bytes_in_pairs :
    ∃ delivered queued : List Bytes, delivered.flatten ++ queued.flatten = [1, 2, 3, 4, 5] ∧
      (∀ d ∈ delivered, d.length = 2) ∧ delivered.length = 2 := by
  obtain ⟨s, hrun, delivered, queued, hbytes, hlen, _, _, hanswers, _⟩ :=
    generator_rechunks .toarraybuffer none 2 (by decide) (by decide)
      [.next .undefined, .write ⟨[1, 2, 3], by decide⟩ none, .next .undefined,
        .write ⟨[4, 5], by decide⟩ none]
  obtain rfl := Option.some.inj (Eq.trans hrun.symm rfl)
  refine ⟨delivered, queued, hbytes, hlen, ?_⟩
  have hcount := congrArg List.length hanswers
  rw [List.length_map, List.length_map] at hcount
  exact hcount.symm

end QjsNet
