import QjsNet.Queue
import QjsNet.Lib.Ledger
import QjsNet.Lib.PartialRun

/- The queue as a byte stream.

   A run is any sequence of the producers, `queue_continuous`, `queue_next` and
   `queue_close` on a new queue. Until it is closed each producer adds its bytes at
   the end, in items of its own or in the last one (`Appends`), so what was taken out
   followed by what is queued is what was put in (`queue_lossless`).

   `queue_close` appends the item that ends the stream, and `queue_add` refuses chunks
   behind it. The other producers look for the last chunk instead, which may be in front
   of the end, and `queue_continuous` adds an item behind it when there is none.
   `queue_end_iff` is the exact condition under which the end stays the end. -/
namespace QjsNet

/-- The calls made before a close and after it. -/
inductive StreamCall where
  | add (chunk : ByteBlock)
  | put (chunk : ByteBlock)
  | write (data : Bytes)
  | append (data : Bytes)
  | putline (data : Bytes)
  | continuous
  | next
  deriving DecidableEq, Repr

inductive QueueCall where
  | stream (call : StreamCall)
  | close
  deriving DecidableEq, Repr

/-- A queue, with the bytes put in and taken out so far, and whether `queue_close` was called. -/
structure QueueState where
  q : Queue
  ctx : JSContext
  put : Bytes
  taken : Bytes
  closed : Bool
  deriving DecidableEq, Repr

def QueueState.new : QueueState := ⟨queueNew, .new, [], [], false⟩

/-- The bytes a call puts in. -/
def StreamCall.data : StreamCall → Bytes
  | .add chunk | .put chunk => chunk.data
  | .write data | .append data | .putline data => data
  | .continuous | .next => []

def streamStep (s : QueueState) (c : StreamCall) : QueueState :=
  let s := { s with put := s.put ++ c.data }
  match c with
  | .add chunk => { s with q := (queueAdd s.q chunk).1 }
  | .put chunk => { s with q := (queuePut s.q chunk).1 }
  | .write data => { s with q := (queueWrite s.q data).1 }
  | .append data => { s with q := (queueAppend s.q data).1 }
  | .putline data => { s with q := (queuePutline s.q data).1 }
  | .continuous => { s with q := (queueContinuous s.q).1 }
  | .next =>
    let (q, ctx, block, _, _) := queueNext s.q s.ctx
    { s with q, ctx, taken := s.taken ++ block.data }

def queueStep (s : QueueState) : QueueCall → Option QueueState
  | .stream call => some (streamStep s call)
  | .close => (queueClose s.q).map fun (q, _) => { s with q, closed := true }

def QueueState.ledger (s : QueueState) : Fifo.Ledger UInt8 := ⟨s.put, s.taken, itemsBytes s.q.items⟩

/-! ## Before the close -/

/-- `q'` is open and has the bytes of `q`, and then `d`. -/
structure Appends (q q' : Queue) (d : Bytes) : Prop where
  isOpen : OpenItems q'.items
  bytes : itemsBytes q'.items = itemsBytes q.items ++ d

variable {q q' : Queue}

theorem Appends.refl (h : OpenItems q.items) : Appends q q [] := ⟨h, (List.append_nil _).symm⟩

theorem Appends.trans {q'' : Queue} {d e : Bytes} (h1 : Appends q q' d) (h2 : Appends q' q'' e) :
    Appends q q'' (d ++ e) :=
  ⟨h2.isOpen, by rw [h2.bytes, h1.bytes, List.append_assoc]⟩

theorem addTail_appends (h : OpenItems q.items) (i : QueueItem) (hi : i.done = false) :
    Appends q (q.addTail i) i.block.data := by
  refine ⟨openItems_append.2 ⟨h, openItems_cons.2 ⟨hi, openItems_nil⟩⟩, ?_⟩
  rw [addTail_items, itemsBytes_append, itemsBytes_cons, itemsBytes_nil, List.append_nil]

theorem queueAdd_appends (h : OpenItems q.items) (chunk : ByteBlock) :
    Appends q (queueAdd q chunk).1 chunk.data := by
  rw [queueAdd_open h]
  exact addTail_appends h ⟨chunk, none, false, none⟩ rfl

theorem queueLastChunk_open (h : OpenItems q.items) {n : Nat} (hn : queueLastChunk q = some n) :
    ∃ init last, q.items = init ++ [last] ∧ init.length = n := by
  rcases List.eq_nil_or_concat' q.items with hnil | ⟨init, last, hsnoc⟩
  · rw [queueLastChunk, hnil] at hn
    cases hn
  · have hlast : last.done = false := h last (by simp [hsnoc])
    rw [queueLastChunk, hsnoc, lastIdx?_snoc (by simp [QueueItem.isChunk, hlast])] at hn
    exact ⟨init, last, hsnoc, Option.some.inj hn⟩

/-- Where a put or a write merges, it merges into the last chunk. -/
theorem mergeTarget {n : Nat} (hn : (if q.continuous then queueLastChunk q else none) = some n) :
    queueLastChunk q = some n := by
  split at hn
  · exact hn
  · cases hn

theorem modifyLast_appends {init : List QueueItem} {last : QueueItem} {f : QueueItem → QueueItem}
    {d : Bytes} (h : OpenItems q.items) (hq : q.items = init ++ [last])
    (hdone : (f last).done = last.done) (hdata : (f last).block.data = last.block.data ++ d) :
    Appends q (q.modify init.length f) d := by
  obtain ⟨hinit, hlast⟩ := openItems_append.1 (hq ▸ h)
  refine ⟨?_, ?_⟩
  · rw [modify_items, hq, modify_snoc]
    exact openItems_append.2 ⟨hinit, openItems_cons.2 ⟨hdone.trans (openItems_cons.1 hlast).1,
      openItems_nil⟩⟩
  · simp only [modify_items, hq, modify_snoc, itemsBytes_append, itemsBytes_cons, itemsBytes_nil,
      hdata, List.append_nil, List.append_assoc]

theorem queuePut_appends (h : OpenItems q.items) (chunk : ByteBlock) :
    Appends q (queuePut q chunk).1 chunk.data := by
  unfold queuePut
  split
  · next n hn =>
    obtain ⟨init, last, hq, rfl⟩ := queueLastChunk_open h (mergeTarget hn)
    refine modifyLast_appends h hq rfl ?_
    rw [merge_block]
    rfl
  · exact queueAdd_appends h chunk

theorem queueWrite_appends (h : OpenItems q.items) (data : Bytes) :
    Appends q (queueWrite q data).1 data := by
  unfold queueWrite
  split
  · next n hn =>
    obtain ⟨init, last, hq, rfl⟩ := queueLastChunk_open h (mergeTarget hn)
    exact modifyLast_appends h hq rfl (data_blockAppend ..)
  · exact queueAdd_appends h (blockCopy data)

theorem queueAppend_appends (h : OpenItems q.items) (data : Bytes) :
    Appends q (queueAppend q data).1 data := by
  unfold queueAppend
  split
  · next n hn =>
    obtain ⟨init, last, hq, rfl⟩ := queueLastChunk_open h hn
    exact modifyLast_appends h hq rfl (data_blockAppend ..)
  · exact queueAdd_appends h (blockCopy data)

theorem lineLength_pos {x : Bytes} (h : x ≠ []) : 0 < lineLength x := by
  unfold lineLength
  split
  · exact Nat.succ_pos _
  · exact List.length_pos_of_ne_nil h

/-- The lines are put in one by one, until nothing is left: what holds of nothing, and of a line
in front of the rest when it holds of the rest, holds of them all. -/
theorem putLines_induct {P : Queue → Bytes → Queue → Prop}
    (hnil : ∀ q, OpenItems q.items → P q [] q)
    (hline : ∀ q x q', OpenItems q.items → x ≠ [] →
      P (queueAdd q (blockCopy (x.take (lineLength x)))).1 (x.drop (lineLength x)) q' → P q x q') :
    ∀ (fuel : Nat) {q : Queue} (x : Bytes) (i : Option Nat),
      OpenItems q.items → x.length ≤ fuel → P q x (putLines fuel q x i).1 := by
  intro fuel
  induction fuel with
  | zero =>
    intro q x i h hfuel
    obtain rfl := List.length_eq_zero_iff.1 (Nat.le_zero.1 hfuel)
    exact hnil q h
  | succ fuel ih =>
    intro q x i h hfuel
    unfold putLines
    split
    · next hempty =>
      obtain rfl := List.isEmpty_iff.1 hempty
      exact hnil q h
    · next hempty =>
      have hne : x ≠ [] := fun hx => hempty (List.isEmpty_iff.2 hx)
      have hpos := lineLength_pos hne
      apply hline q x _ h hne
      apply ih
      · exact (queueAdd_appends h (blockCopy (x.take (lineLength x)))).isOpen
      · rw [List.length_drop]
        omega

theorem putLines_appends (fuel : Nat) {q : Queue} (x : Bytes) (i : Option Nat)
    (h : OpenItems q.items) (hfuel : x.length ≤ fuel) : Appends q (putLines fuel q x i).1 x := by
  refine @putLines_induct (fun q x q' => Appends q q' x) ?_ ?_ fuel q x i h hfuel
  · intro q hq
    exact .refl hq
  · intro q x q' hq _ hrest
    have hboth := (queueAdd_appends hq (blockCopy (x.take (lineLength x)))).trans hrest
    rwa [data_blockCopy, List.take_append_drop] at hboth

theorem queuePutline_appends (h : OpenItems q.items) (data : Bytes) :
    Appends q (queuePutline q data).1 data := by
  unfold queuePutline
  split
  · exact putLines_appends _ _ _ h (Nat.le_refl _)
  · next n hn =>
    split
    · -- The open line is continued in its own item, and the other lines follow.
      have happ := queueAppend_appends h (data.take (lineLength data))
      have hitem : (queueAppend q (data.take (lineLength data))).2 = some n := by
        unfold queueAppend
        rw [hn]
      split
      · next heq =>
        rw [heq] at hitem
        cases hitem
      · next q₁ i heq =>
        rw [heq] at happ
        have hboth := happ.trans (putLines_appends data.length (data.drop (lineLength data)) (some i)
          happ.isOpen (by rw [List.length_drop]; omega))
        rwa [List.take_append_drop] at hboth
    · exact putLines_appends _ _ _ h (Nat.le_refl _)

theorem queueContinuous_appends (h : OpenItems q.items) : Appends q (queueContinuous q).1 [] := by
  unfold queueContinuous
  simp only
  split
  · exact ⟨h, (List.append_nil _).symm⟩
  · have happ := @addTail_appends (q.setContinuous true) h ⟨none, none, false, none⟩ rfl
    exact ⟨happ.isOpen, happ.bytes⟩

/-- What is queued is open, and the ledger balances. -/
structure StreamInv (s : QueueState) : Prop where
  isOpen : OpenItems s.q.items
  balanced : Fifo.Balanced s.ledger

theorem StreamInv.accept {s : QueueState} {d : Bytes} (h : StreamInv s) (happ : Appends s.q q d) :
    StreamInv { s with put := s.put ++ d, q } := by
  refine ⟨happ.isOpen, ?_⟩
  have haccept := @Fifo.accept_balanced _ _ d h.balanced
  unfold Fifo.accept QueueState.ledger at haccept
  rw [← happ.bytes] at haccept
  exact haccept

/-- Taking out the front passes its bytes on, and the item that ends the stream has none. -/
theorem next_balanced {s : QueueState} (hempty : ∀ i ∈ s.q.items, i.done = true → i.block.data = [])
    (hb : Fifo.Balanced s.ledger) : Fifo.Balanced (streamStep s .next).ledger := by
  cases hitems : s.q.items with
  | nil =>
    have hnext : queueNext s.q s.ctx = (s.q, s.ctx, none, false, none) := by
      simp [queueNext, queueFront, hitems]
    simpa [streamStep, StreamCall.data, hnext, QueueState.ledger] using hb
  | cons i is =>
    have hsum : s.taken ++ (i.block.data ++ itemsBytes is) = s.put := by
      rw [← itemsBytes_cons, ← hitems]
      exact hb
    cases hdone : i.done with
    | true =>
      have hnil : i.block.data = [] := hempty i (by simp [hitems]) hdone
      rw [hnil] at hsum
      simpa [streamStep, StreamCall.data, queueNext, queueFront, hitems, hdone, QueueState.ledger,
        Fifo.Balanced, hnil] using hsum
    | false =>
      simpa [streamStep, StreamCall.data, queueNext_cons hitems hdone, QueueState.ledger,
        Fifo.Balanced, hitems] using hsum

theorem queueNext_open (h : OpenItems q.items) (ctx : JSContext) :
    OpenItems (queueNext q ctx).1.items := by
  cases hitems : q.items with
  | nil =>
    have hsame : (queueNext q ctx).1 = q := by simp [queueNext, queueFront, hitems]
    rw [hsame]
    exact h
  | cons i is =>
    obtain ⟨hi, his⟩ := openItems_cons.1 (hitems ▸ h)
    rw [queueNext_cons hitems hi, delHead_items, hitems]
    exact his

theorem streamStep_inv {s : QueueState} (c : StreamCall) (h : StreamInv s) :
    StreamInv (streamStep s c) := by
  cases c with
  | add chunk => exact h.accept (queueAdd_appends h.isOpen chunk)
  | put chunk => exact h.accept (queuePut_appends h.isOpen chunk)
  | write data => exact h.accept (queueWrite_appends h.isOpen data)
  | append data => exact h.accept (queueAppend_appends h.isOpen data)
  | putline data => exact h.accept (queuePutline_appends h.isOpen data)
  | continuous => exact h.accept (queueContinuous_appends h.isOpen)
  | next =>
    refine ⟨queueNext_open h.isOpen s.ctx, next_balanced ?_ h.balanced⟩
    intro i hi hdone
    rw [h.isOpen i hi] at hdone
    cases hdone

/-! ## The whole stream -/

/-- The calls of a stream: `calls`, and after a close some more reads. -/
def streamCalls (calls : List StreamCall) (closing : Option Nat) : List QueueCall :=
  calls.map .stream ++ closing.elim [] fun reads => .close :: List.replicate reads (.stream .next)

theorem streamRun_inv (calls : List StreamCall) {s : QueueState} (h : StreamInv s) :
    ∃ t, PartialRun.run queueStep s (calls.map .stream) = some t ∧ StreamInv t := by
  rw [PartialRun.run_map]
  refine PartialRun.run_total ?_ calls h
  intro s c hs
  exact ⟨streamStep s c, rfl, streamStep_inv c hs⟩

theorem closedRun_balanced (reads : Nat) {s : QueueState}
    (hempty : ∀ i ∈ s.q.items, i.done = true → i.block.data = []) (hb : Fifo.Balanced s.ledger) :
    ∃ t, PartialRun.run queueStep s (List.replicate reads (.stream .next)) = some t ∧
      Fifo.Balanced t.ledger := by
  induction reads generalizing s with
  | zero => exact ⟨s, rfl, hb⟩
  | succ reads ih =>
    have hsub : ∀ i ∈ (streamStep s .next).q.items, i ∈ s.q.items := by
      intro i hi
      unfold streamStep queueNext at hi
      cases hfront : queueFront s.q with
      | none =>
        simp only [hfront] at hi
        exact hi
      | some j =>
        simp only [hfront] at hi
        split at hi
        · exact hi
        · exact List.mem_of_mem_tail hi
    obtain ⟨t, hrun, ht⟩ := ih (fun i hi => hempty i (hsub i hi)) (next_balanced hempty hb)
    exact ⟨t, PartialRun.run_cons_iff.2 ⟨streamStep s .next, rfl, hrun⟩, ht⟩

/-- **The queue is a lossless byte stream.** In every run what was taken out followed by what is
queued is what was put in, before the close and after it. -/
theorem queue_lossless (calls : List StreamCall) (closing : Option Nat) :
    ∃ s, PartialRun.run queueStep .new (streamCalls calls closing) = some s ∧
      Fifo.Balanced s.ledger ∧ s.q.size = s.q.items.length := by
  have hnew : StreamInv .new := ⟨openItems_nil, Fifo.empty_balanced⟩
  obtain ⟨s, hrun, hs⟩ := streamRun_inv calls hnew
  unfold streamCalls
  rw [PartialRun.run_append, hrun, Option.bind_some]
  cases closing with
  | none => exact ⟨s, rfl, hs.balanced, s.q.size_eq⟩
  | some reads =>
    let t : QueueState := { s with q := s.q.addTail doneItem, closed := true }
    have hclose : queueStep s .close = some t := by
      simp only [queueStep, queueClose_open hs.isOpen]
      rfl
    have hempty : ∀ i ∈ t.q.items, i.done = true → i.block.data = [] := by
      intro i hi hdone
      rcases List.mem_append.1 hi with hi | hi
      · rw [hs.isOpen i hi] at hdone
        cases hdone
      · obtain rfl := List.mem_singleton.1 hi
        rfl
    have hbytes : itemsBytes t.q.items = itemsBytes s.q.items := by
      rw [addTail_items, itemsBytes_append]
      exact List.append_nil _
    have hb : Fifo.Balanced t.ledger := by
      have hs' := hs.balanced
      unfold QueueState.ledger at hs' ⊢
      rw [hbytes]
      exact hs'
    obtain ⟨u, hreads, hu⟩ := closedRun_balanced reads hempty hb
    exact ⟨u, PartialRun.run_cons_iff.2 ⟨t, hclose, hreads⟩, hu, u.q.size_eq⟩

/-! ## After the close -/

/-- The item that ends the stream is last and has no bytes. -/
def EndMarked (items : List QueueItem) : Prop :=
  ∀ before i after, items = before ++ i :: after → i.done = true → after = [] ∧ i.block.data = []

theorem EndMarked.of_open {items : List QueueItem} (h : OpenItems items) : EndMarked items := by
  intro before i after heq hdone
  rw [h i (by simp [heq])] at hdone
  cases hdone

theorem EndMarked.snoc {chunks : List QueueItem} {last : QueueItem} (h : OpenItems chunks)
    (hlast : last.block.data = []) : EndMarked (chunks ++ [last]) := by
  intro before i after heq hdone
  rcases List.eq_nil_or_concat' after with rfl | ⟨init, x, rfl⟩
  · obtain ⟨rfl, hi⟩ := List.append_inj' heq rfl
    obtain rfl := List.singleton_inj.1 hi
    exact ⟨rfl, hlast⟩
  · rw [← List.cons_append, ← List.append_assoc] at heq
    obtain ⟨rfl, _⟩ := List.append_inj' heq rfl
    rw [h i (by simp)] at hdone
    cases hdone

theorem EndMarked.cases {items : List QueueItem} (h : EndMarked items) :
    OpenItems items ∨ ∃ chunks last, items = chunks ++ [last] ∧ OpenItems chunks ∧
      last.done = true ∧ last.block.data = [] := by
  rcases List.eq_nil_or_concat' items with rfl | ⟨chunks, last, rfl⟩
  · exact Or.inl openItems_nil
  · have hchunks : OpenItems chunks := by
      intro i hi
      obtain ⟨before, after, rfl⟩ := List.append_of_mem hi
      by_contra hdone
      have hafter := (h before i (after ++ [last]) (by simp) (by simpa using hdone)).1
      simp at hafter
    cases hdone : last.done with
    | false => exact Or.inl (openItems_append.2 ⟨hchunks, openItems_cons.2 ⟨hdone, openItems_nil⟩⟩)
    | true => exact Or.inr ⟨chunks, last, rfl, hchunks, hdone, (h chunks last [] rfl hdone).2⟩

/-- The data of the items. -/
def Queue.blocks (q : Queue) : List Bytes := q.items.map (·.block.data)

/-- What a call owes the end of the stream: it stays the end, and nothing is added once
`queue_close` was called. -/
def KeepsEnd (s : QueueState) (c : QueueCall) : Prop :=
  ∃ s', queueStep s c = some s' ∧ EndMarked s'.q.items ∧
    (s.closed = true → s'.q.blocks <:+ s.q.blocks)

/-- The last chunk is a line that `queue_putline` goes on with. -/
def queueOpenLine (q : Queue) : Bool :=
  (queueLastChunk q).elim false fun n => ByteBlock.openLine ((q.items[n]?).elim none (·.block))

/-- On a complete queue no bytes are merged into a chunk in front of the end, and none is added
behind it to collect bytes in. -/
def BeforeEnd (s : QueueState) : QueueCall → Prop
  | .stream (.put chunk) =>
    queueComplete s.q = true → s.q.continuous = true → queueLastChunk s.q ≠ none → chunk.data = []
  | .stream (.write data) =>
    queueComplete s.q = true → s.q.continuous = true → queueLastChunk s.q ≠ none → data = []
  | .stream (.append data) => queueComplete s.q = true → queueLastChunk s.q ≠ none → data = []
  | .stream (.putline data) => queueComplete s.q = true → queueOpenLine s.q = true → data = []
  | .stream .continuous => queueComplete s.q = true → queueLastChunk s.q ≠ none
  | .stream (.add _) | .stream .next | .close => True

/-- A complete queue: its chunks, and the end. -/
structure Complete (q : Queue) (chunks : List QueueItem) (last : QueueItem) : Prop where
  items : q.items = chunks ++ [last]
  isOpen : OpenItems chunks
  done : last.done = true
  empty : last.block.data = []

variable {chunks : List QueueItem} {last : QueueItem}

theorem complete_or_open (h : EndMarked q.items) :
    OpenItems q.items ∧ queueComplete q = false ∨
      (∃ chunks last, Complete q chunks last) ∧ queueComplete q = true := by
  rcases h.cases with hopen | ⟨chunks, last, hitems, hchunks, hdone, hempty⟩
  · exact Or.inl ⟨hopen, queueComplete_of_open hopen⟩
  · refine Or.inr ⟨⟨chunks, last, hitems, hchunks, hdone, hempty⟩, ?_⟩
    simp [queueComplete, queueBack, hitems, hdone]

theorem Complete.complete (h : Complete q chunks last) : queueComplete q = true := by
  simp [queueComplete, queueBack, h.items, h.done]

theorem Complete.marked (h : Complete q chunks last) : EndMarked q.items :=
  h.items ▸ EndMarked.snoc h.isOpen h.empty

/-- The last chunk of a complete queue is the item in front of the end. -/
theorem Complete.lastChunk (h : Complete q chunks last) {n : Nat} (hn : queueLastChunk q = some n) :
    ∃ init chunk, chunks = init ++ [chunk] ∧ init.length = n := by
  have hlast : last.isChunk = false := by
    simp [QueueItem.isChunk, h.done, ByteBlock.size, h.empty]
  rw [queueLastChunk, h.items, lastIdx?_snoc_not hlast] at hn
  rcases List.eq_nil_or_concat' chunks with rfl | ⟨init, chunk, rfl⟩
  · cases hn
  · have hchunk : chunk.done = false := h.isOpen chunk (by simp)
    rw [lastIdx?_snoc (by simp [QueueItem.isChunk, hchunk])] at hn
    exact ⟨init, chunk, rfl, Option.some.inj hn⟩

/-- What a call makes of a complete queue: `ok` is when it keeps the end, and then the queue
stays complete. -/
structure KeepsIff (q q' : Queue) (ok : Prop) : Prop where
  keeps : EndMarked q'.items ∧ q'.blocks <:+ q.blocks ↔ ok
  stays : ok → EndMarked q'.items ∧ queueComplete q' = true

theorem Complete.same (h : Complete q chunks last) {ok : Prop} (hok : ok) : KeepsIff q q ok :=
  ⟨iff_of_true ⟨h.marked, List.suffix_refl _⟩ hok, fun _ => ⟨h.marked, h.complete⟩⟩

theorem KeepsIff.congr {ok ok' : Prop} (h : KeepsIff q q' ok) (hiff : ok ↔ ok') :
    KeepsIff q q' ok' :=
  ⟨h.keeps.trans hiff, fun hok => h.stays (hiff.2 hok)⟩

theorem Complete.modify (h : Complete q chunks last) {n : Nat} {f : QueueItem → QueueItem}
    {d : Bytes} (hn : queueLastChunk q = some n) (hdone : ∀ i, (f i).done = i.done)
    (hdata : ∀ i, (f i).block.data = i.block.data ++ d) :
    ∃ chunks', Complete (q.modify n f) chunks' last ∧ ((q.modify n f).blocks = q.blocks ↔ d = []) := by
  obtain ⟨init, chunk, rfl, rfl⟩ := h.lastChunk hn
  have hitems : (q.modify init.length f).items = init ++ [f chunk] ++ [last] := by
    rw [modify_items, h.items, List.append_assoc, List.singleton_append, modify_middle]
    simp
  obtain ⟨hinit, hchunk⟩ := openItems_append.1 h.isOpen
  have hchunks : OpenItems (init ++ [f chunk]) :=
    openItems_append.2 ⟨hinit, openItems_cons.2 ⟨(hdone chunk).trans (openItems_cons.1 hchunk).1,
      openItems_nil⟩⟩
  refine ⟨init ++ [f chunk], ⟨hitems, hchunks, h.done, h.empty⟩, ?_⟩
  unfold Queue.blocks
  rw [hitems, h.items]
  simp [hdata]

theorem Complete.merge (h : Complete q chunks last) {n : Nat} {f : QueueItem → QueueItem}
    (d : Bytes) (hn : queueLastChunk q = some n) (hdone : ∀ i, (f i).done = i.done)
    (hdata : ∀ i, (f i).block.data = i.block.data ++ d) :
    KeepsIff q (q.modify n f) (d = []) := by
  obtain ⟨chunks', h', hblocks⟩ := h.modify hn hdone hdata
  refine ⟨?_, fun _ => ⟨h'.marked, h'.complete⟩⟩
  rw [← hblocks]
  refine ⟨?_, fun heq => ⟨h'.marked, heq ▸ List.suffix_refl _⟩⟩
  intro hkeeps
  -- There are as many items as before, so their data are the same.
  exact hkeeps.2.eq_of_length (by simp [Queue.blocks])

theorem Complete.refuses (h : Complete q chunks last) (chunk : ByteBlock) :
    queueAdd q chunk = (q, none) := by
  simp [queueAdd, h.complete]

/-- A put or a write that merges, and one that is refused. -/
theorem Complete.merges (h : Complete q chunks last) {n : Nat} {f : QueueItem → QueueItem}
    (d : Bytes) (hn : (if q.continuous then queueLastChunk q else none) = some n)
    (hdone : ∀ i, (f i).done = i.done) (hdata : ∀ i, (f i).block.data = i.block.data ++ d) :
    KeepsIff q (q.modify n f) (q.continuous = true → queueLastChunk q ≠ none → d = []) := by
  have hl := mergeTarget hn
  have hc : q.continuous = true := by
    by_contra hc
    rw [if_neg hc] at hn
    cases hn
  refine KeepsIff.congr (h.merge d hl hdone hdata) ?_
  simp [hc, hl]

theorem Complete.refused (h : Complete q chunks last)
    (hn : (if q.continuous then queueLastChunk q else none) = none) (chunk : ByteBlock)
    {ok : Prop} : KeepsIff q (queueAdd q chunk).1
      (q.continuous = true → queueLastChunk q ≠ none → ok) := by
  rw [h.refuses]
  refine h.same ?_
  intro hc hl
  rw [if_pos hc] at hn
  exact absurd hn hl

theorem Complete.put (h : Complete q chunks last) (chunk : ByteBlock) :
    KeepsIff q (queuePut q chunk).1
      (q.continuous = true → queueLastChunk q ≠ none → chunk.data = []) := by
  unfold queuePut
  split
  · next n hn =>
    refine h.merges chunk.data hn ?_ ?_
    · exact fun _ => rfl
    · intro i
      rw [merge_block]
      rfl
  · next hn => exact h.refused hn chunk

theorem Complete.write (h : Complete q chunks last) (data : Bytes) :
    KeepsIff q (queueWrite q data).1
      (q.continuous = true → queueLastChunk q ≠ none → data = []) := by
  unfold queueWrite
  split
  · next n hn =>
    refine h.merges data hn ?_ ?_
    · exact fun _ => rfl
    · exact fun i => data_blockAppend i.block data
  · next hn => exact h.refused hn (blockCopy data)

theorem Complete.append (h : Complete q chunks last) (data : Bytes) :
    KeepsIff q (queueAppend q data).1 (queueLastChunk q ≠ none → data = []) := by
  unfold queueAppend
  split
  · next n hn =>
    refine KeepsIff.congr (h.merge data hn ?_ ?_) ?_
    · exact fun _ => rfl
    · exact fun i => data_blockAppend i.block data
    · simp [hn]
  · next hn =>
    rw [h.refuses]
    exact h.same fun hl => absurd hn hl

theorem Complete.append_complete (h : Complete q chunks last) (data : Bytes) :
    queueComplete (queueAppend q data).1 = true := by
  unfold queueAppend
  split
  · next n hn =>
    obtain ⟨chunks', h', _⟩ := @Complete.modify _ _ _ h _
      (fun i => { i with block := blockAppend i.block data }) data hn (fun _ => rfl)
      (fun i => data_blockAppend ..)
    exact h'.complete
  · rw [h.refuses]
    exact h.complete

theorem putLines_complete (hc : queueComplete q = true) : ∀ (fuel : Nat) (x : Bytes)
    (i : Option Nat), (putLines fuel q x i).1 = q := by
  intro fuel
  induction fuel with
  | zero => exact fun _ _ => rfl
  | succ fuel ih =>
    intro x i
    unfold putLines
    split
    · rfl
    · have hrefused : queueAdd q (blockCopy (x.take (lineLength x))) = (q, none) := by
        simp [queueAdd, hc]
      rw [hrefused]
      exact ih _ _

theorem Complete.putline (h : Complete q chunks last) (data : Bytes) :
    KeepsIff q (queuePutline q data).1 (queueOpenLine q = true → data = []) := by
  unfold queuePutline
  split
  · next hn =>
    rw [putLines_complete h.complete]
    refine h.same ?_
    intro hopen
    rw [queueOpenLine, hn] at hopen
    cases hopen
  · next n hn =>
    split
    · next hopen =>
      have hmerge := h.append (data.take (lineLength data))
      have hitem : (queueAppend q (data.take (lineLength data))).2 = some n := by
        unfold queueAppend
        rw [hn]
      have hline : data.take (lineLength data) = [] ↔ data = [] := by
        refine ⟨?_, fun hnil => by rw [hnil, List.take_nil]⟩
        intro htake
        by_contra hne
        have hpos := lineLength_pos hne
        have hlen := congrArg List.length htake
        rw [List.length_take, List.length_nil] at hlen
        have hdata := List.length_pos_of_ne_nil hne
        omega
      have hiff : (queueLastChunk q ≠ none → data.take (lineLength data) = []) ↔
          (queueOpenLine q = true → data = []) := by
        have hopen' : queueOpenLine q = true := by
          rw [queueOpenLine, hn]
          exact hopen
        simp [hn, hline, hopen']
      split
      · next heq =>
        rw [heq] at hitem
        cases hitem
      · next q₁ i heq =>
        have hcomplete := h.append_complete (data.take (lineLength data))
        rw [heq] at hmerge hcomplete
        -- Behind the open line every further line is refused.
        rw [putLines_complete hcomplete]
        exact hmerge.congr hiff
    · next hclosed =>
      rw [putLines_complete h.complete]
      refine h.same ?_
      intro hopen
      rw [queueOpenLine, hn] at hopen
      exact absurd hopen hclosed

theorem Complete.continuous (h : Complete q chunks last) :
    KeepsIff q (queueContinuous q).1 (queueLastChunk q ≠ none) := by
  have hset : queueLastChunk (q.setContinuous true) = queueLastChunk q := rfl
  unfold queueContinuous
  simp only [hset]
  split
  · next n hn =>
    have h' : Complete (q.setContinuous true) chunks last := ⟨h.items, h.isOpen, h.done, h.empty⟩
    have hok : queueLastChunk q ≠ none := by
      rw [hn]
      exact Option.some_ne_none n
    exact ⟨iff_of_true ⟨h'.marked, List.suffix_refl _⟩ hok, fun _ => ⟨h'.marked, h'.complete⟩⟩
  · next hn =>
    refine ⟨iff_of_false ?_ (absurd hn), fun hok => absurd hn hok⟩
    intro hkeeps
    -- The new item comes after the one that ends the stream.
    have hafter := (hkeeps.1 chunks last [⟨none, none, false, none⟩] (by simp [h.items]) h.done).1
    cases hafter

theorem Complete.next (h : Complete q chunks last) (ctx : JSContext) :
    KeepsIff q (queueNext q ctx).1 True := by
  cases chunks with
  | nil =>
    have hsame : (queueNext q ctx).1 = q := by simp [queueNext, queueFront, h.items, h.done]
    rw [hsame]
    exact h.same trivial
  | cons chunk chunks =>
    obtain ⟨hchunk, hchunks⟩ := openItems_cons.1 h.isOpen
    have hitems : q.items = chunk :: (chunks ++ [last]) := h.items
    have h' : Complete q.delHead chunks last := ⟨by simp [hitems], hchunks, h.done, h.empty⟩
    rw [queueNext_cons hitems hchunk]
    refine ⟨iff_of_true ⟨h'.marked, ?_⟩ trivial, fun _ => ⟨h'.marked, h'.complete⟩⟩
    unfold Queue.blocks
    rw [delHead_items, List.map_tail]
    exact List.tail_suffix _

/-! ## Runs with closes -/

/-- The queue is complete from the first close on. -/
structure EndInv (s : QueueState) : Prop where
  marked : EndMarked s.q.items
  closed : s.closed = queueComplete s.q

/-- **One call of the stream.** It keeps the end exactly when it is made before the end. -/
theorem streamStep_end {s : QueueState} (c : StreamCall) (h : EndInv s) :
    (KeepsEnd s (.stream c) ↔ BeforeEnd s (.stream c)) ∧
      (BeforeEnd s (.stream c) → EndInv (streamStep s c)) := by
  have hkeeps : KeepsEnd s (.stream c) ↔ EndMarked (streamStep s c).q.items ∧
      (s.closed = true → (streamStep s c).q.blocks <:+ s.q.blocks) := by
    simp [KeepsEnd, queueStep]
  have hclosed : (streamStep s c).closed = s.closed := by cases c <;> rfl
  rcases complete_or_open h.marked with ⟨hopen, hc⟩ | ⟨⟨chunks, last, hcomplete⟩, hc⟩
  · -- Before the close the queue stays open, whatever is called.
    have hs : s.closed = false := h.closed.trans hc
    have hopen' : OpenItems (streamStep s c).q.items := by
      cases c with
      | add chunk => exact (queueAdd_appends hopen chunk).isOpen
      | put chunk => exact (queuePut_appends hopen chunk).isOpen
      | write data => exact (queueWrite_appends hopen data).isOpen
      | append data => exact (queueAppend_appends hopen data).isOpen
      | putline data => exact (queuePutline_appends hopen data).isOpen
      | continuous => exact (queueContinuous_appends hopen).isOpen
      | next => exact queueNext_open hopen s.ctx
    have hok : BeforeEnd s (.stream c) := by
      cases c <;> simp [BeforeEnd, hc]
    refine ⟨iff_of_true (hkeeps.2 ⟨.of_open hopen', ?_⟩) hok, fun _ => ⟨.of_open hopen', ?_⟩⟩
    · intro h'
      rw [hs] at h'
      cases h'
    · rw [hclosed, hs, queueComplete_of_open hopen']
  · have hs : s.closed = true := h.closed.trans hc
    have hiff : KeepsIff s.q (streamStep s c).q (BeforeEnd s (.stream c)) := by
      cases c with
      | add chunk =>
        have hsame : (streamStep s (.add chunk)).q = s.q := congrArg Prod.fst (hcomplete.refuses chunk)
        rw [hsame]
        exact hcomplete.same trivial
      | put chunk => exact (hcomplete.put chunk).congr (by simp [BeforeEnd, hc])
      | write data => exact (hcomplete.write data).congr (by simp [BeforeEnd, hc])
      | append data => exact (hcomplete.append data).congr (by simp [BeforeEnd, hc])
      | putline data => exact (hcomplete.putline data).congr (by simp [BeforeEnd, hc])
      | continuous => exact hcomplete.continuous.congr (by simp [BeforeEnd, hc])
      | next => exact hcomplete.next s.ctx
    refine ⟨hkeeps.trans ?_, ?_⟩
    · rw [← hiff.keeps, hs]
      simp
    · intro hok
      obtain ⟨hmarked, hstays⟩ := hiff.stays hok
      exact ⟨hmarked, by rw [hclosed, hs, hstays]⟩

/-- A close ends an open queue, and changes nothing when the queue is complete. -/
theorem close_end {s : QueueState} (h : EndInv s) :
    ∃ s', queueStep s .close = some s' ∧ EndInv s' ∧
      (s.closed = true → s'.q.blocks <:+ s.q.blocks) := by
  rcases complete_or_open h.marked with ⟨hopen, hc⟩ | ⟨_, hc⟩
  · refine ⟨{ s with q := s.q.addTail doneItem, closed := true }, ?_, ⟨?_, ?_⟩, ?_⟩
    · simp [queueStep, queueClose_open hopen]
    · exact EndMarked.snoc hopen rfl
    · simp [queueComplete, queueBack, doneItem]
    · intro hs
      rw [h.closed, hc] at hs
      cases hs
  · refine ⟨{ s with closed := true }, ?_, ⟨h.marked, hc.symm⟩, fun _ => List.suffix_refl _⟩
    simp [queueStep, queueClose, hc]

/-- **When the end stays the end.** In a run every call leaves the item that ends the stream last
and without bytes, and adds nothing once the queue is closed, if and only if no call on a complete
queue merges bytes into a chunk in front of the end or collects behind it. Such a run does not
fail. -/
theorem queue_end_iff (calls : List QueueCall) :
    (PartialRun.Meets queueStep KeepsEnd .new calls ↔
      PartialRun.Meets queueStep BeforeEnd .new calls) ∧
    (PartialRun.Meets queueStep BeforeEnd .new calls →
      ∃ s, PartialRun.run queueStep .new calls = some s ∧ EndMarked s.q.items) := by
  have hnew : EndInv .new := ⟨.of_open openItems_nil, rfl⟩
  have hstep : ∀ s c, EndInv s → ∃ s', queueStep s c = some s' ∧
      (KeepsEnd s c ↔ BeforeEnd s c) ∧ (BeforeEnd s c → EndInv s') := by
    intro s c h
    cases c with
    | stream call => exact ⟨streamStep s call, rfl, streamStep_end call h⟩
    | close =>
      obtain ⟨s', hs', hinv, hblocks⟩ := close_end h
      exact ⟨s', hs', iff_of_true ⟨s', hs', hinv.marked, hblocks⟩ trivial, fun _ => hinv⟩
  refine ⟨PartialRun.meets_iff ?_ calls hnew, ?_⟩
  · intro s c s' h hs'
    obtain ⟨t, ht, hspec⟩ := hstep s c h
    obtain rfl := Option.some.inj (hs'.symm.trans ht)
    exact hspec
  · intro hmeets
    have hdefined : ∀ s c, EndInv s → ∃ s', queueStep s c = some s' ∧
        (BeforeEnd s c → EndInv s') := by
      intro s c h
      obtain ⟨s', hs', _, hkeeps⟩ := hstep s c h
      exact ⟨s', hs', hkeeps⟩
    obtain ⟨s, hrun, hs⟩ := PartialRun.meets_total hdefined calls hnew hmeets
    exact ⟨s, hrun, hs.marked⟩

/-- A chunk appended after the close goes in front of the end. -/
theorem queue_end_moves : ¬ PartialRun.Meets queueStep KeepsEnd .new
    [.stream (.add (some [1])), .close, .stream (.append [2])] := by
  intro h
  obtain ⟨_, h1⟩ := h _ rfl
  obtain ⟨_, h2⟩ := h1 _ rfl
  obtain ⟨⟨s, hs, _, hblocks⟩, _⟩ := h2 _ rfl
  obtain rfl := Option.some.inj hs
  exact absurd (hblocks rfl) (by decide)

end QjsNet
