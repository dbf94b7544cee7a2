import Mathlib.Algebra.Ring.Nat
import QjsNet.Buffer

/- The chunk queue (`queue.c`) that generators, sessions and sockets share.

   An item holds a block; the item that ends the stream has `done` set and no
   block. `q->size` counts the items, and `Queue.size_eq` says so, so a queue with
   a wrong count cannot be built. A pointer to an item is its position.

   In continuous mode a written chunk is merged into the last item with data
   (`queueLastChunk`) when there is one.

   Correspondence (C ↔ Lean):
     `queue_front`/`_back`/`_empty`/`_closed`/`_complete`/`_size`
       ↔ `queueFront`, `queueBack`, `queueEmpty`, `queueClosed`, `queueComplete`, `Queue.size`
     `queue_last_chunk`, `queue_next`, `queue_add`, `queue_put`, `queue_write`
       ↔ `queueLastChunk`, `queueNext`, `queueAdd`, `queuePut`, `queueWrite`
     `queue_append`, `queue_putline`, `queue_close`, `queue_bytes`, `queue_continuous`
       ↔ `queueAppend`, `queuePutline`, `queueClose`, `queueBytes`, `queueContinuous` -/
namespace QjsNet

structure QueueItem where
  block : ByteBlock
  /-- Set by the senders that use it; `queue_add` leaves it as `malloc` returned it. -/
  binary : Option Bool
  done : Bool
  /-- The function of the `Deferred`, when there is one. -/
  unref : Option JSValue
  deriving DecidableEq, Repr

structure Queue where
  items : List QueueItem
  size : Nat
  continuous : Bool
  size_eq : size = items.length
  deriving DecidableEq, Repr

/-- `queue_new` -/
def queueNew : Queue := ⟨[], 0, false, rfl⟩

/-- `list_add_tail(&i->link, &q->items); ++q->size;` -/
def Queue.addTail (q : Queue) (i : QueueItem) : Queue where
  items := q.items ++ [i]
  size := q.size + 1
  continuous := q.continuous
  size_eq := by simp [q.size_eq]

/-- `list_del(&i->link); --q->size;` for the first item. -/
def Queue.delHead (q : Queue) : Queue where
  items := q.items.tail
  size := q.size - 1
  continuous := q.continuous
  size_eq := by simp [q.size_eq]

/-- Write to the item at position `n`. -/
def Queue.modify (q : Queue) (n : Nat) (f : QueueItem → QueueItem) : Queue where
  items := q.items.modify n f
  size := q.size
  continuous := q.continuous
  size_eq := by simp [q.size_eq]

/-- `q->continuous = continuous` -/
def Queue.setContinuous (q : Queue) (continuous : Bool) : Queue := { q with continuous }

def queueFront (q : Queue) : Option QueueItem := q.items.head?

def queueBack (q : Queue) : Option QueueItem := q.items.getLast?

def queueEmpty (q : Queue) : Bool := q.items.isEmpty

/-- The item that ends the stream is next. -/
def queueClosed (q : Queue) : Bool := (queueFront q).elim false (·.done)

/-- The item that ends the stream is in the queue. -/
def queueComplete (q : Queue) : Bool := (queueBack q).elim false (·.done)

/-- The position of the last element that satisfies `p`. -/
def lastIdx? {α : Type} (p : α → Bool) : List α → Option Nat
  | [] => none
  | x :: xs =>
    match lastIdx? p xs with
    | some n => some (n + 1)
    | none => if p x then some 0 else none

def QueueItem.isChunk (i : QueueItem) : Bool := i.block.size ≠ 0 || !i.done

def queueLastChunk (q : Queue) : Option Nat := lastIdx? QueueItem.isChunk q.items

/-- The calls `queue_next` makes for the callback of an item: one itself, and one through
the deferred call. -/
def callUnref (ctx : JSContext) : Option JSValue → JSContext
  | none => ctx
  | some fn => jsCall (jsCall ctx fn []) fn []

/-- The functions it calls, one after the other. -/
def QueueItem.calls (i : QueueItem) : List Nat :=
  match i.unref with
  | some (.function f) => [f, f]
  | _ => []

/-- `queue_next`: the block, whether it ends the stream, and whether it is binary. The item
that ends the stream stays in the queue. -/
def queueNext (q : Queue) (ctx : JSContext) :
    Queue × JSContext × ByteBlock × Bool × Option Bool :=
  match queueFront q with
  | none => (q, ctx, none, false, none)
  | some i =>
    let ctx := callUnref ctx i.unref
    (if i.done then q else q.delHead, ctx, i.block, i.done, i.binary)

/-- `queue_add`: refused when the stream is complete. -/
def queueAdd (q : Queue) (chunk : ByteBlock) : Queue × Option Nat :=
  if queueComplete q then (q, none)
  else (q.addTail ⟨chunk, none, false, none⟩, some q.items.length)

def queuePut (q : Queue) (chunk : ByteBlock) : Queue × Option Nat :=
  match if q.continuous then queueLastChunk q else none with
  | some n =>
    (q.modify n fun i =>
      -- an item without data takes a copy, one with data is reallocated
      { i with block := if i.block.size = 0 then blockCopy chunk.data
                        else blockAppend i.block chunk.data }, some n)
  | none => queueAdd q chunk

def queueWrite (q : Queue) (data : Bytes) : Queue × Option Nat :=
  match if q.continuous then queueLastChunk q else none with
  | some n => (q.modify n fun i => { i with block := blockAppend i.block data }, some n)
  | none => queueAdd q (blockCopy data)

/-- `queue_append`: like a write in continuous mode, whatever the mode. -/
def queueAppend (q : Queue) (data : Bytes) : Queue × Option Nat :=
  match queueLastChunk q with
  | some n => (q.modify n fun i => { i with block := blockAppend i.block data }, some n)
  | none => queueAdd q (blockCopy data)

/-- The length of the first line, with the line feed that `memchr` finds, if any. -/
def lineLength (x : Bytes) : Nat :=
  match x.findIdx? (· = 10) with
  | some n => n + 1
  | none => x.length

/-- The loop of `queue_putline`, which returns the last item added, or `i` when there is none.
Each turn takes at least one byte. -/
def putLines : Nat → Queue → Bytes → Option Nat → Queue × Option Nat
  | 0, q, _, i => (q, i)
  | fuel + 1, q, x, i =>
    if x.isEmpty then (q, i)
    else
      let (q, i) := queueAdd q (blockCopy (x.take (lineLength x)))
      putLines fuel q (x.drop (lineLength x)) i

/-- The block has bytes, and the last one is no line feed. -/
def ByteBlock.openLine (b : ByteBlock) : Bool := b.data.getLast?.elim false (· ≠ 10)

/-- `queue_putline`: one item for each line, after the open line of the last chunk is
continued. -/
def queuePutline (q : Queue) (data : Bytes) : Queue × Option Nat :=
  match queueLastChunk q with
  | none => putLines data.length q data none
  | some n =>
    if ByteBlock.openLine ((q.items[n]?).elim none (·.block)) then
      match queueAppend q (data.take (lineLength data)) with
      | (q, none) => (q, none)
      | (q, some i) => putLines data.length q (data.drop (lineLength data)) (some i)
    else putLines data.length q data (some n)

/-- The item `queue_close` appends. -/
def doneItem : QueueItem := ⟨none, none, true, none⟩

/-- `queue_close`. `none` is a failed `assert(!queue_closed(q))`. -/
def queueClose (q : Queue) : Option (Queue × Nat) :=
  if queueComplete q then some (q, q.items.length - 1)
  else if queueClosed q then none
  else some (q.addTail doneItem, q.items.length)

def queueBytes (q : Queue) : Nat :=
  if q.size = 0 then 0 else (q.items.map (·.block.size)).sum

/-- `queue_continuous`: afterwards there is a chunk to merge into. -/
def queueContinuous (q : Queue) : Queue × Nat :=
  let q := q.setContinuous true
  match queueLastChunk q with
  | some n => (q, n)
  | none => (q.addTail ⟨none, none, false, none⟩, q.items.length)

/-! ## What is in a queue -/

/-- The bytes of the items, in order. -/
def itemsBytes (items : List QueueItem) : Bytes := items.flatMap (·.block.data)

/-- The items of a stream that has not been completed. -/
def OpenItems (items : List QueueItem) : Prop := ∀ i ∈ items, i.done = false

theorem Queue.ext_items {q q' : Queue} (hi : q.items = q'.items)
    (hc : q.continuous = q'.continuous) : q = q' := by
  obtain ⟨items, size, continuous, hs⟩ := q
  obtain ⟨items', size', continuous', hs'⟩ := q'
  subst hi hc hs hs'
  rfl

@[simp] theorem addTail_items (q : Queue) (i : QueueItem) : (q.addTail i).items = q.items ++ [i] :=
  rfl

@[simp] theorem addTail_continuous (q : Queue) (i : QueueItem) :
    (q.addTail i).continuous = q.continuous := rfl

@[simp] theorem delHead_items (q : Queue) : q.delHead.items = q.items.tail := rfl

@[simp] theorem delHead_continuous (q : Queue) : q.delHead.continuous = q.continuous := rfl

@[simp] theorem modify_items (q : Queue) (n : Nat) (f : QueueItem → QueueItem) :
    (q.modify n f).items = q.items.modify n f := rfl

@[simp] theorem modify_continuous (q : Queue) (n : Nat) (f : QueueItem → QueueItem) :
    (q.modify n f).continuous = q.continuous := rfl

@[simp] theorem setContinuous_items (q : Queue) (b : Bool) : (q.setContinuous b).items = q.items :=
  rfl

@[simp] theorem setContinuous_continuous (q : Queue) (b : Bool) :
    (q.setContinuous b).continuous = b := rfl

@[simp] theorem itemsBytes_nil : itemsBytes [] = [] := rfl

@[simp] theorem itemsBytes_cons (i : QueueItem) (is : List QueueItem) :
    itemsBytes (i :: is) = i.block.data ++ itemsBytes is := List.flatMap_cons ..

@[simp] theorem itemsBytes_append (is js : List QueueItem) :
    itemsBytes (is ++ js) = itemsBytes is ++ itemsBytes js := List.flatMap_append ..

theorem itemsBytes_take_drop (items : List QueueItem) (n : Nat) :
    itemsBytes (items.take n) ++ itemsBytes (items.drop n) = itemsBytes items := by
  rw [← itemsBytes_append, List.take_append_drop]

theorem queueBytes_eq (q : Queue) : queueBytes q = (itemsBytes q.items).length := by
  unfold queueBytes itemsBytes
  rw [List.length_flatMap]
  split
  · next h =>
    rw [q.size_eq] at h
    rw [List.length_eq_zero_iff.1 h]
    rfl
  · rfl

theorem openItems_nil : OpenItems [] := fun _ h => absurd h List.not_mem_nil

theorem openItems_append {is js : List QueueItem} :
    OpenItems (is ++ js) ↔ OpenItems is ∧ OpenItems js := by
  simp only [OpenItems, List.mem_append, or_imp, forall_and]

theorem openItems_cons {i : QueueItem} {is : List QueueItem} :
    OpenItems (i :: is) ↔ i.done = false ∧ OpenItems is := by
  simp only [OpenItems, List.mem_cons, or_imp, forall_and, forall_eq]

theorem queueComplete_of_open {q : Queue} (h : OpenItems q.items) : queueComplete q = false := by
  unfold queueComplete queueBack
  cases hl : q.items.getLast? with
  | none => rfl
  | some i => exact h i (List.mem_of_getLast? hl)

theorem queueClosed_of_open {q : Queue} (h : OpenItems q.items) : queueClosed q = false := by
  unfold queueClosed queueFront
  cases hl : q.items.head? with
  | none => rfl
  | some i => exact h i (List.mem_of_head? hl)

theorem lastIdx?_snoc {α : Type} {p : α → Bool} {x : α} (hx : p x = true) (xs : List α) :
    lastIdx? p (xs ++ [x]) = some xs.length := by
  induction xs with
  | nil => simp [lastIdx?, hx]
  | cons y ys ih =>
    rw [List.cons_append, lastIdx?, ih]
    rfl

theorem lastIdx?_snoc_not {α : Type} {p : α → Bool} {x : α} (hx : p x = false) (xs : List α) :
    lastIdx? p (xs ++ [x]) = lastIdx? p xs := by
  induction xs with
  | nil => simp [lastIdx?, hx]
  | cons y ys ih =>
    rw [List.cons_append, lastIdx?, ih]
    rfl

theorem lastIdx?_eq_none {α : Type} {p : α → Bool} {xs : List α} :
    lastIdx? p xs = none ↔ ∀ x ∈ xs, p x = false := by
  induction xs with
  | nil => simp [lastIdx?]
  | cons x xs ih =>
    cases hl : lastIdx? p xs with
    | none =>
      have hrest := ih.1 hl
      cases hx : p x <;> simp [lastIdx?, hl, hx]
      exact hrest
    | some n =>
      simp only [lastIdx?, hl, reduceCtorEq, List.mem_cons, forall_eq_or_imp, false_iff, not_and]
      intro _ hrest
      rw [ih.2 hrest] at hl
      cases hl

theorem getElem?_lastIdx? {α : Type} {p : α → Bool} {xs : List α} {n : Nat}
    (h : lastIdx? p xs = some n) : ∃ x, xs[n]? = some x ∧ p x = true := by
  induction xs generalizing n with
  | nil => cases h
  | cons x xs ih =>
    cases hl : lastIdx? p xs with
    | none =>
      cases hx : p x with
      | false => simp [lastIdx?, hl, hx] at h
      | true =>
        obtain rfl : 0 = n := by simpa [lastIdx?, hl, hx] using h
        exact ⟨x, rfl, hx⟩
    | some k =>
      obtain rfl : k + 1 = n := by simpa [lastIdx?, hl] using h
      obtain ⟨y, hy, hp⟩ := ih hl
      exact ⟨y, hy, hp⟩

theorem modify_middle {α : Type} (f : α → α) (x : α) (xs ys : List α) :
    (xs ++ x :: ys).modify xs.length f = xs ++ f x :: ys := by
  induction xs with
  | nil => rfl
  | cons z zs ih =>
    rw [List.cons_append, List.length_cons, List.modify_succ_cons, ih]
    rfl

theorem modify_snoc {α : Type} (f : α → α) (x : α) (xs : List α) :
    (xs ++ [x]).modify xs.length f = xs ++ [f x] := modify_middle f x xs []

/-! ## What each operation does to an open queue -/

theorem queueAdd_incomplete {q : Queue} (h : queueComplete q = false) (chunk : ByteBlock) :
    queueAdd q chunk = (q.addTail ⟨chunk, none, false, none⟩, some q.items.length) := by
  unfold queueAdd
  rw [h]
  rfl

theorem queueAdd_open {q : Queue} (h : OpenItems q.items) (chunk : ByteBlock) :
    queueAdd q chunk = (q.addTail ⟨chunk, none, false, none⟩, some q.items.length) :=
  queueAdd_incomplete (queueComplete_of_open h) chunk

/-- Whether the stream has been completed is seen from the last item. -/
theorem queueComplete_snoc {q : Queue} {init : List QueueItem} {last : QueueItem}
    (hq : q.items = init ++ [last]) : queueComplete q = last.done := by
  unfold queueComplete queueBack
  rw [hq, List.getLast?_concat]
  rfl

/-- Merging gives the item the bytes of both, whether or not it had any. -/
theorem merge_block (b chunk : ByteBlock) :
    (if b.size = 0 then blockCopy chunk.data else blockAppend b chunk.data)
      = some (b.data ++ chunk.data) := by
  split
  · next h => rw [ByteBlock.size_eq_zero.1 h]; rfl
  · rfl

theorem queuePut_separate {q : Queue} (h : OpenItems q.items) (hc : q.continuous = false)
    (chunk : ByteBlock) :
    queuePut q chunk = (q.addTail ⟨chunk, none, false, none⟩, some q.items.length) := by
  unfold queuePut
  rw [hc]
  exact queueAdd_open h chunk

theorem queuePut_continuous_nil {q : Queue} (hq : q.items = []) (chunk : ByteBlock) :
    queuePut q chunk = (q.addTail ⟨chunk, none, false, none⟩, some 0) := by
  have hl : queueLastChunk q = none := by simp [queueLastChunk, hq, lastIdx?]
  unfold queuePut
  rw [hl]
  have h : OpenItems q.items := hq ▸ openItems_nil
  simp only [ite_self, queueAdd_open h chunk, hq]
  rfl

theorem queuePut_continuous_snoc {q : Queue} {init : List QueueItem} {last : QueueItem}
    (hq : q.items = init ++ [last]) (hlast : last.done = false) (hc : q.continuous = true)
    (chunk : ByteBlock) :
    (queuePut q chunk).1.items
        = init ++ [{ last with block := some (last.block.data ++ chunk.data) }] ∧
      (queuePut q chunk).1.continuous = true ∧ (queuePut q chunk).2 = some init.length := by
  have hl : queueLastChunk q = some init.length := by
    unfold queueLastChunk
    rw [hq]
    exact lastIdx?_snoc (by simp [QueueItem.isChunk, hlast]) init
  unfold queuePut
  rw [hc, if_pos rfl, hl]
  refine ⟨?_, hc, rfl⟩
  simp only [modify_items, hq, modify_snoc, merge_block]

theorem queuePut_continuous (q : Queue) (chunk : ByteBlock) :
    (queuePut q chunk).1.continuous = q.continuous := by
  unfold queuePut queueAdd
  split
  · rfl
  · split <;> rfl

theorem queuePut_merges {q : Queue} (hopen : OpenItems q.items) (hc : q.continuous = true)
    (chunk : ByteBlock) : ∃ last, (queuePut q chunk).1.items = q.items.dropLast ++ [last] ∧
      (queuePut q chunk).2 = some q.items.dropLast.length ∧ last.done = false ∧
      last.block.data = (q.items.getLast?.map (·.block.data)).getD [] ++ chunk.data ∧
      last.unref = q.items.getLast?.bind (·.unref) := by
  rcases List.eq_nil_or_concat' q.items with hnil | ⟨init, last, hsnoc⟩
  · rw [queuePut_continuous_nil hnil chunk]
    refine ⟨⟨chunk, none, false, none⟩, ?_, ?_, rfl, ?_, ?_⟩
    · rw [addTail_items, hnil]
      rfl
    · rw [hnil]
      rfl
    · simp [hnil]
    · simp [hnil]
  · have hlast : last.done = false := hopen last (by rw [hsnoc]; simp)
    obtain ⟨hitems, _, hn⟩ := queuePut_continuous_snoc hsnoc hlast hc chunk
    refine ⟨{ last with block := some (last.block.data ++ chunk.data) }, ?_, ?_, hlast, ?_, ?_⟩
    · rw [hitems, hsnoc, List.dropLast_concat]
    · rw [hn, hsnoc, List.dropLast_concat]
    · simp [hsnoc]
    · simp [hsnoc]

theorem callUnref_called (ctx : JSContext) (i : QueueItem) :
    (callUnref ctx i.unref).called = ctx.called ++ i.calls := by
  obtain ⟨block, binary, done, unref⟩ := i
  cases unref with
  | none => exact (List.append_nil _).symm
  | some fn =>
    cases fn with
    | function f => simp [callUnref, QueueItem.calls]
    | _ => simp [callUnref, QueueItem.calls, called_jsCall, Call.function?]

theorem queueNext_cons {q : Queue} {i : QueueItem} {is : List QueueItem}
    (hq : q.items = i :: is) (hi : i.done = false) (ctx : JSContext) :
    queueNext q ctx = (q.delHead, callUnref ctx i.unref, i.block, false, i.binary) := by
  simp [queueNext, queueFront, hq, hi]

theorem queueClose_open {q : Queue} (h : OpenItems q.items) :
    queueClose q = some (q.addTail doneItem, q.items.length) := by
  unfold queueClose
  rw [queueComplete_of_open h, queueClosed_of_open h]
  rfl

/-! ## Chunks put one by one -/

/-- A chunk as it is queued. -/
def chunkItem (chunk : Bytes) : QueueItem := ⟨some chunk, none, false, none⟩

theorem chunkItems_open (chunks : List Bytes) : OpenItems (chunks.map chunkItem) := by
  intro i hi
  obtain ⟨chunk, -, rfl⟩ := List.mem_map.1 hi
  rfl

theorem itemsBytes_chunkItems (chunks : List Bytes) :
    itemsBytes (chunks.map chunkItem) = chunks.flatten := by
  induction chunks with
  | nil => rfl
  | cons chunk chunks ih =>
    rw [List.map_cons, itemsBytes_cons, ih, List.flatten_cons]
    rfl

def queuePuts (q : Queue) (chunks : List Bytes) : Queue :=
  chunks.foldl (fun q chunk => (queuePut q (blockCopy chunk)).1) q

theorem queuePuts_separate (chunks : List Bytes) {q : Queue} (hopen : OpenItems q.items)
    (hc : q.continuous = false) :
    (queuePuts q chunks).items = q.items ++ chunks.map chunkItem ∧
      (queuePuts q chunks).continuous = false := by
  induction chunks generalizing q with
  | nil => exact ⟨(List.append_nil _).symm, hc⟩
  | cons chunk chunks ih =>
    have hput : (queuePut q (blockCopy chunk)).1 = q.addTail (chunkItem chunk) := by
      rw [queuePut_separate hopen hc]
      rfl
    have hopen' : OpenItems (queuePut q (blockCopy chunk)).1.items := by
      rw [hput, addTail_items]
      exact openItems_append.2 ⟨hopen, openItems_cons.2 ⟨rfl, openItems_nil⟩⟩
    obtain ⟨hitems, hcont⟩ := ih hopen' (by rw [hput]; exact hc)
    refine ⟨?_, hcont⟩
    rw [show queuePuts q (chunk :: chunks) = queuePuts (queuePut q (blockCopy chunk)).1 chunks
      from rfl, hitems, hput, addTail_items, List.append_assoc, List.map_cons, List.singleton_append]

end QjsNet
