import QjsNet.GeneratorSizes
import QjsNet.Lib.Marks

/- The callbacks of chunks.

   A callback that comes with a chunk is to be called once, when the chunk is dequeued
   or goes straight to a read. A chunk that was written ends in the item that is last in
   the queue then, or in the last answer when the queue is empty; it is out when as many
   reads are answered (`carried`, `CalledOnce`).

   `queue_next` calls the callback of an item twice. A direct write calls none, a
   buffering generator keeps none, and in continuous mode the callback of a chunk
   replaces that of the chunk before it in the item. So the callbacks are called as they
   should be as long as no chunk that has one is let out (`callbacks_once_iff`), and
   by accident when one item collects two chunks with the same callback. -/
namespace QjsNet

inductive WriteMode where
  | unbuffered
  | buffering (chunkSize : Nat)
  | continuous (callback : Option Nat)
  deriving DecidableEq, Repr

/-- A new generator in the mode. -/
def WriteMode.generator (blockFn : BlockFn) (executor : Option Nat) : WriteMode → Generator
  | .unbuffered => .new blockFn (callbackArg executor) none
  | .buffering chunkSize => .new blockFn (callbackArg executor) (some chunkSize)
  | .continuous callback =>
    (generatorContinuous (.new blockFn (callbackArg executor) none) (callbackArg callback)).1

/-- The functions that are called for other reasons: the executor, and the callback of continuous
mode. -/
def WriteMode.own (executor : Option Nat) : WriteMode → List Nat
  | .continuous callback => executor.toList ++ callback.toList
  | _ => executor.toList

inductive CarryCall (own : List Nat) where
  | write (data : Bytes) (callback : Option {f : Nat // f ∉ own})
  | next (arg : JSValue)
  | executorReturns

/-- A generator, and for each chunk with a callback the number of the answer that lets it out. -/
structure CarryState where
  api : ApiState
  carried : List (Nat × Nat)
  deriving DecidableEq, Repr

def Generator.answered (gen : Generator) : Nat := gen.ctx.settlements.length

/-- The number of the answer that lets out the last item. -/
def Generator.ahead (gen : Generator) : Nat := gen.answered + gen.queue.items.length

theorem ahead_eq {gen : Generator} {items : List QueueItem} (h : gen.queue.items = items) :
    gen.ahead = gen.answered + items.length := by
  rw [Generator.ahead, h]

variable {own : List Nat}

/-- A callback with the number of the answer that lets out its chunk. -/
def marked (callback : Option {f : Nat // f ∉ own}) (n : Nat) : List (Nat × Nat) :=
  callback.toList.map fun f => (f.val, n)

def carryStep (s : CarryState) : CarryCall own → Option CarryState
  | .write data callback => do
    let api ← apiStep s.api (.write data (callback.map Subtype.val))
    some ⟨api, s.carried ++ marked callback api.gen.ahead⟩
  | .next arg => do
    let api ← apiStep s.api (.next arg)
    some { s with api }
  | .executorReturns => do
    let api ← apiStep s.api .executorReturns
    some { s with api }

/-- The callbacks of chunks that were called. -/
def Generator.invoked (own : List Nat) (gen : Generator) : List Nat := gen.ctx.called.filter (· ∉ own)

/-- Each callback was called once for each of its chunks that is out, in the order of the chunks. -/
def CalledOnce (own : List Nat) (s : CarryState) : Prop :=
  s.api.gen.invoked own = Marks.upTo s.carried s.api.gen.answered

instance (own : List Nat) (s : CarryState) : Decidable (CalledOnce own s) :=
  inferInstanceAs (Decidable (_ = _))

/-- The callbacks of the chunks a call lets out. -/
def outgoing (s : CarryState) : CarryCall own → List Nat
  | .write data callback =>
    let sizes := s.api.gen.sizesAfter data.length
    Marks.within (s.carried ++ marked callback (s.api.gen.answered + sizes.length))
      s.api.gen.answered (s.api.gen.leaving s.api.gen.iterator.reads.length sizes)
  | .next _ =>
    -- The read that starts the executor looks at the queue when this returns.
    if s.api.gen.executor.isFunction then []
    else Marks.within s.carried s.api.gen.answered
      (s.api.gen.leaving (s.api.gen.iterator.reads.length + 1) (itemsSizes s.api.gen.queue.items))
  | .executorReturns =>
    Marks.within s.carried s.api.gen.answered
      (s.api.gen.leaving s.api.gen.iterator.reads.length (itemsSizes s.api.gen.queue.items))

/-- A call lets out no chunk with a callback, or in continuous mode two with the same. -/
def Spares (s : CarryState) (c : CarryCall own) : Prop :=
  outgoing s c = [] ∨ s.api.gen.queue.continuous = true ∧ ∃ f, outgoing s c = [f, f]

variable {gen gen' : Generator} {carried : List (Nat × Nat)} {mode : WriteMode} {k : Nat}

/-! ## How items keep callbacks -/

/-- The callbacks of the chunks that end in the item at position `j`. -/
def Generator.carriedBy (gen : Generator) (carried : List (Nat × Nat)) (j : Nat) : List Nat :=
  Marks.atMark carried (gen.answered + j + 1)

/-- Of the chunks that end in an item, the item keeps the callback of the last. -/
def HoldsLast (gen : Generator) (carried : List (Nat × Nat)) : Prop :=
  ∀ j i, gen.queue.items[j]? = some i →
    i.unref = (gen.carriedBy carried j).getLast?.map .function

/-- What the items keep in each mode. -/
def Holding (gen : Generator) (carried : List (Nat × Nat)) : WriteMode → Prop
  | .unbuffered => gen.buffering = false ∧ gen.queue.continuous = false ∧ HoldsLast gen carried ∧
    ∀ j, (gen.carriedBy carried j).length ≤ 1
  | .buffering _ => gen.buffering = true ∧ gen.queue.continuous = false ∧
    ∀ i ∈ gen.queue.items, i.unref = none
  | .continuous _ => gen.buffering = false ∧ gen.queue.continuous = true ∧ HoldsLast gen carried ∧
    gen.queue.items.length ≤ 1

structure CarryInv (own : List Nat) (mode : WriteMode) (gen : Generator)
    (carried : List (Nat × Nat)) : Prop where
  api : ApiInv gen
  going : ¬ Stopped gen
  slot : gen.callback.isFunction = true → ∃ f ∈ own, gen.callback = .function f
  executor : gen.executor.isFunction = true → ∃ f ∈ own, gen.executor = .function f
  size : gen.buffering = false → gen.chunkSize = 0
  ordered : Marks.Ordered carried
  bound : ∀ e ∈ carried, e.2 ≤ gen.ahead
  foreign : ∀ e ∈ carried, e.1 ∉ own
  holding : Holding gen carried mode

theorem CarryInv.isOpen (h : CarryInv own mode gen carried) : OpenItems gen.queue.items :=
  h.api.isOpen h.going

theorem Holding.congr (h : Holding gen carried mode) (hbuf : gen'.buffering = gen.buffering)
    (hq : gen'.queue = gen.queue) (hans : gen'.answered = gen.answered) :
    Holding gen' carried mode := by
  have hby : ∀ j, gen'.carriedBy carried j = gen.carriedBy carried j := by
    intro j
    unfold Generator.carriedBy
    rw [hans]
  cases mode <;> simp only [Holding, HoldsLast, hbuf, hq, hby] at h ⊢ <;> exact h

theorem CarryInv.count {w r cw cr : Nat} (h : CarryInv own mode gen carried) :
    CarryInv own mode { gen with
      bytesWritten := w
      bytesRead := r
      chunksWritten := cw
      chunksRead := cr } carried :=
  ⟨h.api.congr rfl rfl, h.going, h.slot, h.executor, h.size, h.ordered, h.bound, h.foreign,
    h.holding.congr rfl rfl rfl⟩

/-! ## Deliveries -/

theorem Delivers.answered {fns : Nat → Prop} (hk : Delivers fns gen gen' k) :
    gen'.answered = gen.answered + k := by
  have hreads := hk.reads
  have hcount := hk.count
  have hlen : (deliveries gen (gen.iterator.reads.take k) (gen.queue.items.take k)).length = k := by
    unfold deliveries
    rw [List.length_zipWith, List.length_take, List.length_take]
    omega
  unfold Generator.answered
  rw [hk.settlements, List.length_append, hlen]

theorem Delivers.ahead {fns : Nat → Prop} (hk : Delivers fns gen gen' k) :
    gen'.ahead = gen.ahead := by
  have hcount := hk.count
  rw [ahead_eq hk.items, ahead_eq rfl, hk.answered, List.length_drop]
  omega

theorem Holding.delivers {fns : Nat → Prop} (h : Holding gen carried mode)
    (hk : Delivers fns gen gen' k) : Holding gen' carried mode := by
  have hbuf : gen'.buffering = gen.buffering := by
    obtain ⟨q, ctx, n, m, rfl⟩ := hk.frame
    rfl
  have hby : ∀ j, gen'.carriedBy carried j = gen.carriedBy carried (k + j) := by
    intro j
    unfold Generator.carriedBy
    rw [hk.answered, Nat.add_assoc gen.answered k j]
  have hlast : HoldsLast gen carried → HoldsLast gen' carried := by
    intro hlast j i hi
    rw [hk.items, List.getElem?_drop] at hi
    rw [hby]
    exact hlast (k + j) i hi
  cases mode with
  | unbuffered =>
    obtain ⟨h1, h2, h3, h4⟩ := h
    exact ⟨hbuf.trans h1, hk.continuous.trans h2, hlast h3, fun j => hby j ▸ h4 (k + j)⟩
  | buffering chunkSize =>
    obtain ⟨h1, h2, h3⟩ := h
    refine ⟨hbuf.trans h1, hk.continuous.trans h2, ?_⟩
    intro i hi
    rw [hk.items] at hi
    exact h3 i (List.mem_of_mem_drop hi)
  | continuous callback =>
    obtain ⟨h1, h2, h3, h4⟩ := h
    refine ⟨hbuf.trans h1, hk.continuous.trans h2, hlast h3, ?_⟩
    rw [hk.items, List.length_drop]
    omega

theorem CarryInv.delivers {fns : Nat → Prop} (h : CarryInv own mode gen carried)
    (hk : Delivers fns gen gen' k) : CarryInv own mode gen' carried := by
  have hhold := h.holding.delivers hk
  have hahead := hk.ahead
  have hapi := h.api.delivers hk
  obtain ⟨q, ctx, n, m, rfl⟩ := hk.frame
  exact ⟨hapi, h.going, h.slot, h.executor, h.size, h.ordered, fun e he => hahead ▸ h.bound e he,
    h.foreign, hhold⟩

/-- What a delivery calls. -/
def Generator.calling (own : List Nat) (gen : Generator) (k : Nat) : List Nat :=
  ((gen.queue.items.take k).flatMap QueueItem.calls).filter (· ∉ own)

theorem Delivers.invoked {fns : Nat → Prop} (hk : Delivers fns gen gen' k) (own : List Nat) :
    gen'.invoked own = gen.invoked own ++ gen.calling own k := by
  unfold Generator.invoked Generator.calling
  rw [hk.called, List.filter_append]

/-- Two calls. -/
def twice (f : Nat) : List Nat := [f, f]

/-- `queue_next` calls the callback of an item twice. -/
theorem CarryInv.calls (h : CarryInv own mode gen carried) (hlast : HoldsLast gen carried) {j : Nat}
    {i : QueueItem} (hi : gen.queue.items[j]? = some i) :
    i.calls.filter (· ∉ own) = (gen.carriedBy carried j).getLast?.toList.flatMap twice := by
  have hunref := hlast j i hi
  unfold QueueItem.calls
  rw [hunref]
  cases hl : (gen.carriedBy carried j).getLast? with
  | none => rfl
  | some f =>
    obtain ⟨e, he, rfl⟩ := Marks.mem_atMark (List.mem_of_getLast? hl)
    simp [twice, h.foreign e he]

theorem calling_succ {i : QueueItem} (hi : gen.queue.items[k]? = some i) (own : List Nat) :
    gen.calling own (k + 1) = gen.calling own k ++ i.calls.filter (· ∉ own) := by
  unfold Generator.calling
  rw [List.take_add_one, hi, List.flatMap_append, List.filter_append, Option.toList_some,
    List.flatMap_singleton]

theorem CarryInv.calling_unbuffered (h : CarryInv own .unbuffered gen carried) :
    ∀ k, k ≤ gen.queue.items.length →
      gen.calling own k = (Marks.within carried gen.answered k).flatMap twice := by
  obtain ⟨_, _, hlast, hone⟩ := h.holding
  intro k
  induction k with
  | zero =>
    intro _
    rw [Marks.within_zero]
    rfl
  | succ k ih =>
    intro hk
    have hi := List.getElem?_eq_getElem hk
    have hitem : (gen.carriedBy carried k).getLast?.toList = gen.carriedBy carried k := by
      have hlen := hone k
      rcases hby : gen.carriedBy carried k with _ | ⟨f, _ | ⟨g, fs⟩⟩
      · rfl
      · rfl
      · rw [hby] at hlen
        simp at hlen
    calc gen.calling own (k + 1)
        = gen.calling own k ++ (gen.carriedBy carried k).flatMap twice := by
          rw [calling_succ hi, h.calls hlast hi, hitem]
      _ = (Marks.within carried gen.answered k).flatMap twice
            ++ (gen.carriedBy carried k).flatMap twice := by rw [ih (Nat.le_of_succ_le hk)]
      _ = (Marks.within carried gen.answered (k + 1)).flatMap twice := by
          rw [Marks.within_succ h.ordered, List.flatMap_append]
          rfl

theorem eq_twice_iff {xs : List Nat} : xs = xs.flatMap twice ↔ xs = [] := by
  refine ⟨?_, ?_⟩
  · intro heq
    have hlen := congrArg List.length heq
    have htwice : (xs.flatMap twice).length = 2 * xs.length := by
      rw [List.length_flatMap]
      simp [twice, Nat.mul_comm]
    exact List.length_eq_zero_iff.1 (by omega)
  · intro hnil
    rw [hnil]
    rfl

theorem eq_twice_last_iff {xs : List Nat} :
    xs = xs.getLast?.toList.flatMap twice ↔ xs = [] ∨ ∃ f, xs = [f, f] := by
  refine ⟨?_, ?_⟩
  · intro heq
    cases hl : xs.getLast? with
    | none => exact Or.inl (List.getLast?_eq_none_iff.1 hl)
    | some f =>
      rw [hl] at heq
      exact Or.inr ⟨f, heq⟩
  · intro h
    rcases h with rfl | ⟨f, rfl⟩
    · rfl
    · rfl

/-- **What is called for the items that leave.** -/
theorem CarryInv.calling_iff (h : CarryInv own mode gen carried) (hk : k ≤ gen.queue.items.length) :
    Marks.within carried gen.answered k = gen.calling own k ↔
      Marks.within carried gen.answered k = [] ∨
        gen.queue.continuous = true ∧ ∃ f, Marks.within carried gen.answered k = [f, f] := by
  cases mode with
  | unbuffered =>
    rw [h.calling_unbuffered k hk, eq_twice_iff, h.holding.2.1]
    simp
  | buffering chunkSize =>
    have hnone : gen.calling own k = [] := by
      unfold Generator.calling
      rw [List.filter_eq_nil_iff]
      intro f hf
      obtain ⟨i, hi, hf⟩ := List.mem_flatMap.1 hf
      rw [QueueItem.calls, h.holding.2.2 i (List.mem_of_mem_take hi)] at hf
      cases hf
    rw [hnone, h.holding.2.1]
    simp
  | continuous callback =>
    obtain ⟨_, hcont, hlast, hlen⟩ := h.holding
    rw [hcont]
    simp only [true_and]
    -- There is one item, which may have collected many chunks.
    rcases k with _ | _ | k
    · rw [Marks.within_zero]
      exact iff_of_true rfl (Or.inl rfl)
    · have hi := List.getElem?_eq_getElem hk
      rw [calling_succ hi, h.calls hlast hi, Marks.within_succ h.ordered, Marks.within_zero]
      exact eq_twice_last_iff
    · omega

/-! ## Putting a chunk into the queue -/

theorem atMark_marked (callback : Option {f : Nat // f ∉ own}) (n : Nat) :
    Marks.atMark (marked callback n) n = callback.toList.map Subtype.val := by
  cases callback with
  | none => rfl
  | some f => exact Marks.atMark_singleton

theorem atMark_marked_other (callback : Option {f : Nat // f ∉ own}) {n m : Nat} (hne : n ≠ m) :
    Marks.atMark (marked callback n) m = [] := by
  cases callback with
  | none => rfl
  | some f => exact Marks.atMark_other hne

theorem carriedBy_append (gen : Generator) (carried new : List (Nat × Nat)) (j : Nat) :
    gen.carriedBy (carried ++ new) j = gen.carriedBy carried j ++ gen.carriedBy new j :=
  Marks.atMark_append

/-- The callback a chunk brings is the one its item is given. -/
theorem callbackArg_unref (callback : Option {f : Nat // f ∉ own}) (old : Option JSValue) :
    (if (callbackArg (callback.map Subtype.val)).isFunction
      then some (callbackArg (callback.map Subtype.val)) else old)
      = (callback.map fun f => JSValue.function f.val).or old := by
  cases callback <;> rfl

theorem CarryInv.carriedBy_beyond (h : CarryInv own mode gen carried) {j : Nat}
    (hj : gen.queue.items.length ≤ j) : gen.carriedBy carried j = [] := by
  refine Marks.atMark_eq_nil ?_
  intro e he
  have hle := h.bound e he
  unfold Generator.ahead at hle
  omega

theorem CarryInv.put_unbuffered {d : Bytes} {callback : Option {f : Nat // f ∉ own}} {ret : Nat}
    (h : CarryInv own .unbuffered gen carried)
    (heq : enqueueBlock gen (blockCopy d) (callbackArg (callback.map Subtype.val))
      = some (gen', ret)) :
    gen.queue.items.length ≤ gen'.queue.items.length ∧
      Holding gen' (carried ++ marked callback gen'.ahead) .unbuffered := by
  obtain ⟨hbuf, hcont, hlast, hone⟩ := h.holding
  obtain ⟨q, item, rfl, hcont', hitems, _, _, hunref, _⟩ := enqueueBlock_plain h.isOpen hbuf heq
  rw [hcont, if_neg Bool.false_ne_true] at hitems
  rw [hcont, if_neg Bool.false_ne_true, callbackArg_unref, Option.or_none] at hunref
  have hahead : (gen.setQueue q).ahead = gen.answered + gen.queue.items.length + 1 := by
    rw [@ahead_eq (gen.setQueue q) _ hitems, List.length_append]
    rfl
  have hby : ∀ j, (gen.setQueue q).carriedBy (carried ++ marked callback (gen.setQueue q).ahead) j
      = gen.carriedBy carried j ++
        if j = gen.queue.items.length then callback.toList.map Subtype.val else [] := by
    intro j
    rw [carriedBy_append, hahead]
    congr 1
    split
    · next hj => exact hj ▸ atMark_marked callback _
    · next hj =>
      refine atMark_marked_other callback ?_
      show gen.answered + gen.queue.items.length + 1 ≠ gen.answered + j + 1
      omega
  refine ⟨?_, hbuf, hcont'.trans hcont, ?_, ?_⟩
  · rw [setQueue_queue, hitems, List.length_append]
    omega
  · intro j i hi
    rw [hby]
    rw [setQueue_queue, hitems] at hi
    by_cases hj : j = gen.queue.items.length
    · obtain rfl := hj
      rw [List.getElem?_concat_length, Option.some.injEq] at hi
      rw [if_pos rfl, h.carriedBy_beyond (Nat.le_refl _), ← hi, hunref]
      cases callback <;> rfl
    · obtain ⟨hlt, _⟩ := List.getElem?_eq_some_iff.1 hi
      rw [List.length_append, List.length_singleton] at hlt
      rw [List.getElem?_append_left (by omega)] at hi
      rw [if_neg hj, List.append_nil]
      exact hlast j i hi
  · intro j
    rw [hby]
    split
    · next hj =>
      rw [h.carriedBy_beyond (Nat.le_of_eq hj.symm)]
      cases callback <;> simp
    · rw [List.append_nil]
      exact hone j

theorem CarryInv.put_buffering {c : Nat} {d : Bytes} {callback : Option {f : Nat // f ∉ own}} {ret : Nat}
    (h : CarryInv own (.buffering c) gen carried)
    (heq : enqueueBlock gen (blockCopy d) (callbackArg (callback.map Subtype.val))
      = some (gen', ret)) :
    gen.queue.items.length ≤ gen'.queue.items.length ∧
      Holding gen' (carried ++ marked callback gen'.ahead) (.buffering c) := by
  obtain ⟨hbuf, _, hnone⟩ := h.holding
  obtain ⟨q, first, extra, rfl, hcont', hitems, _, hfirst, hextra, _⟩ :=
    enqueueBlock_cut h.isOpen hbuf heq
  refine ⟨?_, hbuf, hcont', ?_⟩
  · rw [setQueue_queue, hitems, List.length_append, List.length_dropLast, List.length_cons]
    omega
  · intro i hi
    rw [setQueue_queue, hitems] at hi
    rcases List.mem_append.1 hi with hi | hi
    · exact hnone i (List.dropLast_subset _ hi)
    · rcases List.mem_cons.1 hi with rfl | hi
      · rw [hfirst]
        cases hl : gen.queue.items.getLast? with
        | none => rfl
        | some last => exact hnone last (List.mem_of_getLast? hl)
      · exact hextra i hi

theorem CarryInv.put_continuous {cb : Option Nat} {d : Bytes} {callback : Option {f : Nat // f ∉ own}} {ret : Nat}
    (h : CarryInv own (.continuous cb) gen carried)
    (heq : enqueueBlock gen (blockCopy d) (callbackArg (callback.map Subtype.val))
      = some (gen', ret)) :
    gen.queue.items.length ≤ gen'.queue.items.length ∧
      Holding gen' (carried ++ marked callback gen'.ahead) (.continuous cb) := by
  obtain ⟨hbuf, hcont, hlast, hlen⟩ := h.holding
  obtain ⟨q, item, rfl, hcont', hitems, _, _, hunref, _⟩ := enqueueBlock_plain h.isOpen hbuf heq
  have hdrop : gen.queue.items.dropLast = [] := by
    refine List.eq_nil_of_length_eq_zero ?_
    rw [List.length_dropLast]
    omega
  rw [hcont, if_pos rfl, hdrop, List.nil_append] at hitems
  rw [hcont, if_pos rfl, callbackArg_unref] at hunref
  have hahead : (gen.setQueue q).ahead = gen.answered + 0 + 1 := @ahead_eq (gen.setQueue q) _ hitems
  have hold : gen.queue.items.getLast?.bind (·.unref)
      = (gen.carriedBy carried 0).getLast?.map .function := by
    rcases hit : gen.queue.items with _ | ⟨i, is⟩
    · rw [@CarryInv.carriedBy_beyond _ _ _ _ h 0 (by rw [hit]; exact Nat.le_refl _)]
      rfl
    · obtain rfl : is = [] := by
        rw [hit] at hlen
        simpa using hlen
      exact hlast 0 i (by rw [hit]; rfl)
  refine ⟨?_, hbuf, hcont'.trans hcont, ?_, ?_⟩
  · rw [setQueue_queue, hitems]
    exact hlen
  · intro j i hi
    rw [setQueue_queue, hitems] at hi
    rcases j with _ | j
    · obtain rfl : item = i := Option.some.inj hi
      rw [carriedBy_append, hunref, hold, hahead]
      have hnew : (gen.setQueue q).carriedBy (marked callback (gen.answered + 0 + 1)) 0
          = callback.toList.map Subtype.val := atMark_marked callback _
      rw [hnew]
      cases callback with
      | none => simp; rfl
      | some f => simp
    · cases hi
  · rw [setQueue_queue, hitems]
    exact Nat.le_refl _

theorem CarryInv.holding_put {d : Bytes} {callback : Option {f : Nat // f ∉ own}} {ret : Nat}
    (h : CarryInv own mode gen carried)
    (heq : enqueueBlock gen (blockCopy d) (callbackArg (callback.map Subtype.val))
      = some (gen', ret)) :
    gen.queue.items.length ≤ gen'.queue.items.length ∧
      Holding gen' (carried ++ marked callback gen'.ahead) mode := by
  cases mode with
  | unbuffered => exact h.put_unbuffered heq
  | buffering chunkSize => exact h.put_buffering heq
  | continuous cb => exact h.put_continuous heq

/-- A callback may be added whose chunk is let out last. -/
theorem marked_append (callback : Option {f : Nat // f ∉ own}) {n : Nat}
    (hordered : Marks.Ordered carried) (hbound : ∀ e ∈ carried, e.2 ≤ n)
    (hforeign : ∀ e ∈ carried, e.1 ∉ own) :
    Marks.Ordered (carried ++ marked callback n) ∧ (∀ e ∈ carried ++ marked callback n, e.2 ≤ n) ∧
      ∀ e ∈ carried ++ marked callback n, e.1 ∉ own := by
  refine ⟨?_, ?_, ?_⟩
  · cases callback with
    | none => exact (List.append_nil carried).symm ▸ hordered
    | some f => exact hordered.snoc hbound
  · intro e he
    rcases List.mem_append.1 he with he | he
    · exact hbound e he
    · obtain ⟨f, _, rfl⟩ := List.mem_map.1 he
      exact Nat.le_refl _
  · intro e he
    rcases List.mem_append.1 he with he | he
    · exact hforeign e he
    · obtain ⟨f, _, rfl⟩ := List.mem_map.1 he
      exact f.2

theorem CarryInv.put {d : Bytes} {callback : Option {f : Nat // f ∉ own}} {ret : Nat}
    (h : CarryInv own mode gen carried)
    (heq : enqueueBlock gen (blockCopy d) (callbackArg (callback.map Subtype.val))
      = some (gen', ret)) :
    CarryInv own mode gen' (carried ++ marked callback gen'.ahead) ∧ gen'.ctx = gen.ctx := by
  obtain ⟨hapi, _⟩ := h.api.enqueueBlock callbackArg_function heq
  obtain ⟨hlen, hholding⟩ := h.holding_put heq
  obtain ⟨q, rfl, _⟩ := @enqueueBlock_extends (fun _ => True) _ _ _ _ _ h.api.marked
    (callbackArg_user fun _ _ => trivial) heq
  obtain ⟨hordered, hbound, hforeign⟩ := marked_append callback h.ordered
    (fun e he => Nat.le_trans (h.bound e he) (Nat.add_le_add_left hlen _)) h.foreign
  exact ⟨⟨hapi, h.going, h.slot, h.executor, h.size, hordered, hbound, hforeign, hholding⟩, rfl⟩

/-! ## The calls -/

/-- After a delivery from the state `gen` the callbacks are called as they should be, if and only if
what was called for the items is what was in them. -/
theorem CarryInv.deliver_iff {fns : Nat → Prop} {api : ApiState}
    (h : CarryInv own mode gen carried) (hk : Delivers fns gen gen' k)
    (hgen : api.gen.ctx = gen'.ctx) (hbefore : gen.invoked own = Marks.upTo carried gen.answered) :
    CalledOnce own ⟨api, carried⟩ ↔
      Marks.within carried gen.answered k = [] ∨
        gen.queue.continuous = true ∧ ∃ f, Marks.within carried gen.answered k = [f, f] := by
  have hinvoked : api.gen.invoked own = gen'.invoked own := by
    unfold Generator.invoked
    rw [hgen]
  have hanswered : api.gen.answered = gen'.answered := by
    unfold Generator.answered
    rw [hgen]
  rw [← h.calling_iff hk.count]
  unfold CalledOnce
  rw [hinvoked, hk.invoked, hbefore, hanswered, hk.answered, Marks.upTo_add h.ordered,
    List.append_cancel_left_eq, eq_comm]

theorem Holding.continuous_eq {carried' : List (Nat × Nat)} (h : Holding gen carried mode)
    (h' : Holding gen' carried' mode) : gen'.queue.continuous = gen.queue.continuous := by
  cases mode with
  | unbuffered => exact h'.2.1.trans h.2.1.symm
  | buffering chunkSize => exact h'.2.1.trans h.2.1.symm
  | continuous callback => exact h'.2.1.trans h.2.1.symm

theorem upTo_marked (callback : Option {f : Nat // f ∉ own}) (carried : List (Nat × Nat)) {n m : Nat}
    (hlt : n < m) : Marks.upTo (carried ++ marked callback m) n = Marks.upTo carried n := by
  have hnew : Marks.upTo (marked callback m) n = [] := by
    refine Marks.upTo_eq_nil ?_
    intro e he
    obtain ⟨f, _, rfl⟩ := List.mem_map.1 he
    exact hlt
  rw [Marks.upTo_append, hnew, List.append_nil]

theorem CarryInv.write_queued {api : ApiState} {d : Bytes}
    {callback : Option {f : Nat // f ∉ own}} {ret : Nat} (h : CarryInv own mode api.gen carried)
    (heq : enqueueBlock api.gen (blockCopy d) (callbackArg (callback.map Subtype.val))
      = some (gen, ret))
    (hgen' : gen' = (writeLoop gen.iterator.reads.length gen).addWritten ret) :
    CarryInv own mode gen' (carried ++ marked callback gen'.ahead) ∧
      (CalledOnce own ⟨api, carried⟩ →
        (CalledOnce own ⟨{ api with gen := gen' }, carried ++ marked callback gen'.ahead⟩ ↔
          Spares ⟨api, carried⟩ (.write d callback))) := by
  obtain ⟨h₁, hctx⟩ := h.put heq
  have hk := writeLoop_full _ gen h₁.isOpen h₁.api.unrefs rfl
  have hsizes : itemsSizes gen.queue.items = api.gen.sizesAfter d.length :=
    enqueueBlock_sizes h.isOpen heq
  obtain ⟨q, rfl, _⟩ := @enqueueBlock_extends (fun _ => True) _ _ _ _ _ h.api.marked
    (callbackArg_user fun _ _ => trivial) heq
  have hahead : gen'.ahead = (api.gen.setQueue q).ahead := by
    rw [hgen']
    exact hk.ahead
  have hinv := h₁.delivers hk
  have hcount : (api.gen.sizesAfter d.length).length = q.items.length := by
    rw [← hsizes]
    exact List.length_map ..
  have hlater : api.gen.answered < (api.gen.setQueue q).ahead := by
    have hpos := sizesAfter_pos api.gen d.length
    unfold Generator.ahead
    show api.gen.answered < api.gen.answered + q.items.length
    omega
  have hout : outgoing ⟨api, carried⟩ (.write d callback)
      = Marks.within (carried ++ marked callback (api.gen.setQueue q).ahead) api.gen.answered
        (min api.gen.iterator.reads.length
          (q.items.takeWhile (api.gen.setQueue q).full).length) := by
    rw [← leaving_full]
    show Marks.within (carried ++ marked callback (api.gen.answered
        + (api.gen.sizesAfter d.length).length)) api.gen.answered
      (api.gen.leaving api.gen.iterator.reads.length (api.gen.sizesAfter d.length)) = _
    rw [hcount, ← hsizes]
    rfl
  rw [hahead]
  refine ⟨?_, ?_⟩
  · rw [hgen']
    exact hinv.count
  · intro hbefore
    unfold Spares
    rw [hout, ← h.holding.continuous_eq h₁.holding]
    refine h₁.deliver_iff hk ?_ ?_
    · rw [hgen']
      rfl
    · exact hbefore.trans (upTo_marked callback carried hlater).symm

theorem holding_empty (hbuf : gen.buffering = false) (hcont : gen.queue.continuous = false)
    (hempty : gen.queue.items = []) (hbound : ∀ e ∈ carried, e.2 ≤ gen.answered) :
    Holding gen carried .unbuffered := by
  refine ⟨hbuf, hcont, ?_, ?_⟩
  · intro j i hi
    rw [hempty] at hi
    cases hi
  · intro j
    have hnone : gen.carriedBy carried j = [] := by
      refine Marks.atMark_eq_nil ?_
      intro e he
      have hle := hbound e he
      omega
    rw [hnone]
    exact Nat.zero_le _

theorem outgoing_direct {s : CarryState} {d : Bytes} {callback : Option {f : Nat // f ∉ own}}
    (hsize : s.api.gen.buffering = false → s.api.gen.chunkSize = 0)
    (hdirect : s.api.gen.direct = true) : outgoing s (.write d callback)
      = Marks.within (s.carried ++ marked callback (s.api.gen.answered + 1)) s.api.gen.answered 1 := by
  obtain ⟨hbuf, hcont, hitems, hne⟩ := direct_iff.1 hdirect
  obtain ⟨rd, reads, hreads⟩ := List.exists_cons_of_ne_nil hne
  have hsizes : s.api.gen.sizesAfter d.length = [d.length] := by
    unfold Generator.sizesAfter
    simp [hbuf, hcont, hitems, itemsSizes]
  unfold outgoing Generator.leaving
  simp [hsizes, hsize hbuf, hreads]

theorem CarryInv.write_direct {api : ApiState} {d : Bytes}
    {callback : Option {f : Nat // f ∉ own}} {n : Nat} (h : CarryInv own mode api.gen carried)
    (hdirect : api.gen.direct = true)
    (hgen' : gen' = ((iteratorYield api.gen (api.gen.blockFn.apply d)).1.addRead 0).addWritten n) :
    CarryInv own mode gen' (carried ++ marked callback gen'.ahead) ∧
      (CalledOnce own ⟨api, carried⟩ →
        (CalledOnce own ⟨{ api with gen := gen' }, carried ++ marked callback gen'.ahead⟩ ↔
          Spares ⟨api, carried⟩ (.write d callback))) := by
  obtain ⟨hbuf, hcont, hitems, hne⟩ := direct_iff.1 hdirect
  obtain ⟨rd, reads, hreads⟩ := List.exists_cons_of_ne_nil hne
  have hapi := h.api.iteratorYield (api.gen.blockFn.apply d)
  simp only [iteratorYield_cons hreads] at hgen' hapi
  let gen₁ : Generator := { api.gen with
    iterator := { api.gen.iterator with reads }
    ctx := jsCall api.gen.ctx (.resolve rd.capability)
      [.iteratorResult (api.gen.blockFn.apply d) false] }
  have hempty : gen₁.queue.items = [] := hitems
  have hanswered : gen₁.answered = api.gen.answered + 1 := by
    show (jsCall api.gen.ctx (.resolve rd.capability) _).settlements.length = _
    rw [settlements_resolve, List.length_append]
    rfl
  have hnow : api.gen.ahead = api.gen.answered := ahead_eq hitems
  have hahead : gen₁.ahead = api.gen.answered + 1 := (ahead_eq hempty).trans hanswered
  -- Of what was carried before nothing is left.
  obtain ⟨hordered, hbound, hforeign⟩ := marked_append callback h.ordered
    (fun e he => Nat.le_succ_of_le (hnow ▸ h.bound e he)) h.foreign
  have hholding : Holding gen₁ (carried ++ marked callback (api.gen.answered + 1)) mode := by
    have hholding := h.holding
    cases mode with
    | unbuffered => exact holding_empty hbuf hcont hempty fun e he => hanswered ▸ hbound e he
    | buffering chunkSize =>
      rw [hholding.1] at hbuf
      cases hbuf
    | continuous callback =>
      rw [hholding.2.1] at hcont
      cases hcont
  have hout := @outgoing_direct _ ⟨api, carried⟩ d callback h.size hdirect
  have hinvoked : gen₁.invoked own = api.gen.invoked own := by
    unfold Generator.invoked
    rw [show gen₁.ctx.called = api.gen.ctx.called from called_resolve ..]
  have hahead' : gen'.ahead = api.gen.answered + 1 := by
    rw [hgen']
    exact hahead
  rw [hahead']
  refine ⟨?_, ?_⟩
  · rw [hgen']
    have hinv : CarryInv own mode gen₁ (carried ++ marked callback (api.gen.answered + 1)) :=
      ⟨hapi, h.going, h.slot, h.executor, h.size, hordered, fun e he => hahead ▸ hbound e he,
        hforeign, hholding⟩
    exact hinv.count
  · intro hbefore
    have hiff : CalledOnce own ⟨{ api with gen := gen' },
          carried ++ marked callback (api.gen.answered + 1)⟩ ↔
        gen₁.invoked own = Marks.upTo (carried ++ marked callback (api.gen.answered + 1))
          gen₁.answered := by
      rw [hgen']
      exact Iff.rfl
    rw [hiff, hinvoked, show api.gen.invoked own = _ from hbefore, hanswered, Marks.upTo_add hordered,
      upTo_marked callback carried (Nat.lt_succ_self _), List.self_eq_append_right]
    unfold Spares
    rw [hout, hcont]
    simp

theorem CarryInv.write {api : ApiState} {d : Bytes} {callback : Option {f : Nat // f ∉ own}}
    {ret : Nat} (h : CarryInv own mode api.gen carried)
    (heq : generatorWrite api.gen d (callbackArg (callback.map Subtype.val)) = some (gen', ret)) :
    CarryInv own mode gen' (carried ++ marked callback gen'.ahead) ∧
      (CalledOnce own ⟨api, carried⟩ →
        (CalledOnce own ⟨{ api with gen := gen' }, carried ++ marked callback gen'.ahead⟩ ↔
          Spares ⟨api, carried⟩ (.write d callback))) := by
  unfold generatorWrite at heq
  split at heq
  · next hdirect =>
    obtain ⟨hgen', -⟩ := Prod.mk.inj (Option.some.inj heq)
    exact h.write_direct hdirect hgen'.symm
  · obtain ⟨⟨gen₁, ret₁⟩, h1, h2⟩ := Option.bind_eq_some_iff.1 heq
    obtain ⟨hgen', -⟩ := Prod.mk.inj (Option.some.inj h2)
    exact h.write_queued h1 hgen'.symm

/-- A call of a function of its own is no call of a chunk's callback. -/
theorem quiet_own {f : Nat} (hf : f ∈ own) (ctx : JSContext) (args : List JSValue) :
    (jsCall ctx (.function f) args).settlements = ctx.settlements ∧
      (jsCall ctx (.function f) args).called.filter (· ∉ own) = ctx.called.filter (· ∉ own) := by
  refine ⟨settlements_function .., ?_⟩
  rw [called_function, List.filter_append, List.filter_cons_of_neg (by simpa using hf)]
  exact List.append_nil _

theorem CarryInv.ask (h : CarryInv own mode gen carried) (arg : JSValue) :
    CarryInv own mode (gen.ask arg) carried :=
  ⟨h.api.ask h.going arg, h.going, h.slot, h.executor, h.size, h.ordered, h.bound, h.foreign,
    h.holding.congr rfl rfl rfl⟩

/-- The executor and the callback of continuous mode are functions of its own. -/
theorem CarryInv.resume (h : CarryInv own mode gen carried) (arg : JSValue) :
    CarryInv own mode (gen.resume arg) carried ∧ (gen.resume arg).answered = gen.answered ∧
      (gen.resume arg).invoked own = gen.invoked own := by
  -- What is called is one of them, and the slot is empty afterwards.
  have hcall : ∀ {funcs : ResolveFunctions} {executor : JSValue} {started : Bool} {f : Nat}
      {args : List JSValue}, f ∈ own →
      (executor.isFunction = true → ∃ f ∈ own, executor = .function f) →
      (funcs.resolve.isFunction = true → ∃ f ∈ own, funcs.resolve = .function f) →
      CarryInv own mode { gen with
        ctx := jsCall gen.ctx (.function f) args
        resolveReject := funcs
        executor := executor
        started := started } carried ∧
      (jsCall gen.ctx (.function f) args).settlements.length = gen.answered ∧
      (jsCall gen.ctx (.function f) args).called.filter (· ∉ own) = gen.invoked own := by
    intro funcs executor started f args hf hexec hslot
    obtain ⟨hsettled, hcalled⟩ := quiet_own hf gen.ctx args
    have hanswered : (jsCall gen.ctx (.function f) args).settlements.length = gen.answered :=
      congrArg List.length hsettled
    refine ⟨⟨h.api.congr rfl rfl, h.going, hslot, hexec, h.size, h.ordered, ?_, h.foreign,
      h.holding.congr rfl rfl hanswered⟩, hanswered, hcalled⟩
    intro e he
    have hle := h.bound e he
    unfold Generator.ahead at hle ⊢
    exact hle.trans_eq (congrArg (· + _) hanswered.symm)
  have hstarted : ∀ b, CarryInv own mode { gen with started := b } carried := fun b =>
    ⟨h.api.congr rfl rfl, h.going, h.slot, h.executor, h.size, h.ordered, h.bound, h.foreign,
      h.holding.congr rfl rfl rfl⟩
  unfold Generator.resume startExecutor
  cases hexec : gen.executor.isFunction with
  | true =>
    obtain ⟨f, hf, hfn⟩ := h.executor hexec
    simp only [if_true]
    rw [hfn]
    exact hcall hf (fun hfn => by cases hfn) h.slot
  | false =>
    simp only [Bool.false_eq_true, if_false]
    cases hs : gen.started with
    | true => exact ⟨h, rfl, rfl⟩
    | false =>
      simp only [Bool.false_eq_true, if_false]
      cases hslot : gen.callback.isFunction with
      | false =>
        rw [generatorCallback_idle hslot]
        exact ⟨hstarted true, rfl, rfl⟩
      | true =>
        obtain ⟨f, hf, hfn⟩ := h.slot hslot
        simp only [generatorCallback, hslot, if_true, Generator.setCallback]
        rw [hfn]
        exact hcall hf h.executor (fun hfn => by cases hfn)

theorem CarryInv.nextEnd {api : ApiState} (h : CarryInv own mode gen carried)
    (hgen : api.gen = generatorNextEnd gen) :
    CarryInv own mode api.gen carried ∧
      (gen.invoked own = Marks.upTo carried gen.answered → (CalledOnce own ⟨api, carried⟩ ↔
        Marks.within carried gen.answered
            (gen.leaving gen.iterator.reads.length (itemsSizes gen.queue.items)) = [] ∨
          gen.queue.continuous = true ∧ ∃ f, Marks.within carried gen.answered
            (gen.leaving gen.iterator.reads.length (itemsSizes gen.queue.items)) = [f, f])) := by
  have hclosing : gen.iterator.closing = false := by
    have hgoing := h.going
    simp only [Stopped, not_or, Bool.not_eq_true] at hgoing
    exact hgoing.1
  rw [h.api.nextEnd_going h.going] at hgen
  obtain ⟨hk, _⟩ := updateLoop_ready _ gen h.isOpen h.api.unrefs rfl
  rw [ready_eq_full hclosing h.size, ← leaving_full] at hk
  exact ⟨hgen ▸ h.delivers hk, h.deliver_iff hk (congrArg Generator.ctx hgen)⟩

/-- Neither taking in a read nor the executor changes the queue. -/
theorem leaving_resume_ask (gen : Generator) (arg : JSValue) :
    ((gen.ask arg).resume arg).leaving ((gen.ask arg).resume arg).iterator.reads.length
          (itemsSizes ((gen.ask arg).resume arg).queue.items)
        = gen.leaving (gen.iterator.reads.length + 1) (itemsSizes gen.queue.items) ∧
      ((gen.ask arg).resume arg).queue.continuous = gen.queue.continuous := by
  obtain ⟨ctx, executor, funcs, started, heq⟩ := resume_frame (gen.ask arg) arg
  rw [heq]
  refine ⟨?_, rfl⟩
  unfold Generator.leaving
  rw [show (Generator.iterator _).reads.length = gen.iterator.reads.length + 1 from
    List.length_append]
  rfl

theorem carryStep_iff {s s' : CarryState} {c : CarryCall own}
    (h : CarryInv own mode s.api.gen s.carried) (hstep : carryStep s c = some s') :
    CarryInv own mode s'.api.gen s'.carried ∧
      (CalledOnce own s → (CalledOnce own s' ↔ Spares s c)) := by
  obtain ⟨api, carried⟩ := s
  cases c with
  | write data callback =>
    obtain ⟨api', hwrite, hs'⟩ := Option.bind_eq_some_iff.1 hstep
    obtain ⟨⟨gen, ret⟩, heq, hapi⟩ := Option.bind_eq_some_iff.1 hwrite
    obtain rfl := Option.some.inj hapi
    obtain rfl := Option.some.inj hs'
    exact h.write heq
  | next arg =>
    obtain ⟨api', hnext, hs'⟩ := Option.bind_eq_some_iff.1 hstep
    obtain rfl := Option.some.inj hs'
    have hbegin := nextBegin_ask h.going arg
    obtain ⟨hresume, hanswered, hinvoked⟩ := (h.ask arg).resume arg
    have hbefore : CalledOnce own ⟨api, carried⟩ →
        ((api.gen.ask arg).resume arg).invoked own
          = Marks.upTo carried ((api.gen.ask arg).resume arg).answered := by
      intro hcalled
      rw [hinvoked, hanswered]
      exact hcalled
    cases hexec : api.gen.executor.isFunction with
    | true =>
      obtain rfl := Option.some.inj ((apiStep_next_starts hbegin hexec).symm.trans hnext)
      refine ⟨hresume, fun hcalled => iff_of_true (hbefore hcalled) (Or.inl ?_)⟩
      simp [outgoing, hexec]
    | false =>
      obtain rfl := Option.some.inj ((apiStep_next hbegin hexec).symm.trans hnext)
      obtain ⟨hinv, hiff⟩ := @CarryInv.nextEnd _ _ _ _ { api with
        gen := generatorNextEnd ((api.gen.ask arg).resume arg)
        asked := api.asked ++ [api.gen.ctx.promises] } hresume rfl
      refine ⟨hinv, fun hcalled => ?_⟩
      obtain ⟨hleaving, hcont⟩ := leaving_resume_ask api.gen arg
      have hiff := hiff (hbefore hcalled)
      rw [hleaving, hcont, hanswered] at hiff
      rw [hiff, Spares, outgoing, hexec, if_neg Bool.false_ne_true]
      rfl
  | executorReturns =>
    obtain ⟨api', hreturn, hs'⟩ := Option.bind_eq_some_iff.1 hstep
    obtain rfl := Option.some.inj hs'
    simp only [apiStep] at hreturn
    split at hreturn
    · obtain rfl := Option.some.inj hreturn
      exact h.nextEnd rfl
    · cases hreturn

def CarryState.new (gen : Generator) : CarryState := ⟨.new gen, []⟩

theorem callbackArg_own {callback : Option Nat} (h : callback.toList ⊆ own) :
    (callbackArg callback).isFunction = true → ∃ f ∈ own, callbackArg callback = .function f :=
  callbackArg_user fun f hf => h (by rw [hf]; exact List.mem_singleton_self f)

theorem carryInv_new (blockFn : BlockFn) (executor : Option Nat) (mode : WriteMode) :
    CarryInv (mode.own executor) mode (mode.generator blockFn executor) [] := by
  have hnew := apiInv_new blockFn (callbackArg executor)
  have hgoing : ∀ chunkSize, ¬ Stopped (.new blockFn (callbackArg executor) chunkSize) := by
    intro chunkSize
    cases chunkSize <;> simp [Stopped, Generator.new, generatorNew, generatorBuffering, createQueue,
      Generator.setQueue, asynciteratorZero]
  have hnil : ∀ {p : Nat × Nat → Prop}, ∀ e ∈ ([] : List (Nat × Nat)), p e :=
    fun e he => absurd he List.not_mem_nil
  have hexecutor := @callbackArg_own (mode.own executor) executor
  cases mode with
  | unbuffered =>
    refine ⟨hnew none, hgoing none, (fun hfn => by cases hfn), hexecutor (List.Subset.refl _),
      fun _ => rfl, Marks.ordered_nil, hnil, hnil, rfl, rfl, ?_, fun j => Nat.zero_le _⟩
    intro j i hi
    cases hi
  | buffering chunkSize =>
    refine ⟨hnew (some chunkSize), hgoing (some chunkSize), (fun hfn => by cases hfn),
      hexecutor (List.Subset.refl _), (fun hbuf => by cases hbuf), Marks.ordered_nil, hnil, hnil,
      rfl, rfl, ?_⟩
    intro i hi
    cases hi
  | continuous callback =>
    let item : QueueItem := ⟨none, none, false, none⟩
    let q : Queue := ⟨[item], 1, true, rfl⟩
    let gen := (Generator.new blockFn (callbackArg executor) none).setQueue q
    have hopen : OpenItems q.items := openItems_cons.2 ⟨rfl, openItems_nil⟩
    have hapi : ApiInv gen := by
      refine (hnew none).withQueue (.of_open hopen) rfl ?_
      intro _
      exact userCallbacks_singleton.2 fun fn hfn => by cases hfn
    have hlast : HoldsLast gen [] := by
      intro j i hi
      rcases j with _ | j
      · obtain rfl : item = i := Option.some.inj hi
        rfl
      · cases hi
    have hslot := @callbackArg_own (executor.toList ++ callback.toList) callback
      (List.subset_append_right _ _)
    have hexecutor := hexecutor (List.subset_append_left _ _)
    cases callback with
    | none =>
      exact ⟨hapi, hgoing none, (fun hfn => by cases hfn), hexecutor, fun _ => rfl,
        Marks.ordered_nil, hnil, hnil, rfl, rfl, hlast, Nat.le_refl _⟩
    | some f =>
      exact ⟨hapi.congr rfl rfl, hgoing none, hslot, hexecutor, fun _ => rfl,
        Marks.ordered_nil, hnil, hnil, rfl, rfl, hlast, Nat.le_refl _⟩

/-- **When callbacks are called once.** In a run of writes and reads every callback is called once,
when its chunk is let out, and in order, if and only if every call spares the callbacks. -/
theorem callbacks_once_iff (blockFn : BlockFn) (executor : Option Nat) (mode : WriteMode)
    (calls : List (CarryCall (mode.own executor))) :
    PartialRun.Throughout carryStep (CalledOnce (mode.own executor))
        (.new (mode.generator blockFn executor)) calls ↔
      PartialRun.Meets carryStep Spares (.new (mode.generator blockFn executor)) calls := by
  let I : CarryState → Prop := fun s => CarryInv (mode.own executor) mode s.api.gen s.carried
  have hnew : CalledOnce (mode.own executor) (.new (mode.generator blockFn executor)) := by
    cases mode with
    | unbuffered => rfl
    | buffering chunkSize => rfl
    | continuous callback => cases callback <;> rfl
  exact @PartialRun.throughout_iff_meets _ _ _ I _ _ (fun s c s' h hstep => (carryStep_iff h hstep).1)
    (fun s c s' h hcalled hstep => (carryStep_iff h hstep).2 hcalled) calls _
    (carryInv_new blockFn executor mode) hnew

/-- The chunk is queued, and its callback is called twice when it is read. -/
theorem callback_called_twice :
    ¬ ∀ (blockFn : BlockFn) (executor : Option Nat) (mode : WriteMode)
      (calls : List (CarryCall (mode.own executor))),
      PartialRun.Throughout carryStep (CalledOnce (mode.own executor))
        (.new (mode.generator blockFn executor)) calls := by
  intro h
  have htwice := h .toarraybuffer none .unbuffered
    [.write [97] (some ⟨7, by decide⟩), .next .undefined] _ (List.prefix_refl _) _ rfl
  exact absurd htwice (by decide)

end QjsNet
