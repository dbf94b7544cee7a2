import QjsNet.Queue

/- Reading bytes from a queue (`queue_read` in `queue.c`).

   A turn of the loop copies what it can from the first item, and takes the item off when
   nothing is left of it. Otherwise the rest of its block is copied into a new one and the
   loop ends. The length of the rest is the length that `len -= j` has left, less `j` once
   more, so the new block ends `j` bytes too early. When fewer than `j` bytes are left that
   length wraps round: `malloc` is asked for more than there is, and the item gets the null
   block, unless adding `LWS_PRE` wraps it round once more. Then there is memory, too
   little of it, and `block_copy` writes behind its end.

   The item that ends the stream is taken off as well when the loop reaches it, unlike in
   `queue_next`.

   Correspondence (C ↔ Lean):
     the turn that stops, `block_copy(b + j, len - j)` ↔ `blockRest`, `none` for a write
                                                         outside the memory
     `queue_read`                                      ↔ `readItems`, `queueRead` -/
namespace QjsNet

/-- The queue, what was copied, and the number `queue_read` returns. -/
structure QueueReading where
  q : Queue
  ctx : JSContext
  copied : Bytes
  r : Nat
  deriving DecidableEq, Repr

/-- The block of the rest of `d`, of which `j` bytes were copied. -/
def blockRest (lwsPre : Nat) (d : Bytes) (j : Nat) : Option ByteBlock :=
  let len := d.length - j
  if j ≤ len then some (blockCopy ((d.drop j).take (len - j)))
  -- len - j + 2^64 + LWS_PRE reaches 2^64
  else if j - len ≤ lwsPre then none
  else some none

/-- The loop, over the items that are in the queue. -/
def readItems (lwsPre : Nat) : List QueueItem → Nat → QueueReading → Option QueueReading
  | [], _, s => some s
  | i :: items, n, s =>
    let j := min i.block.size n
    if i.block.size - j = 0 then
      readItems lwsPre items (n - j)
        ⟨s.q.delHead, callUnref s.ctx i.unref, s.copied ++ i.block.data.take j, s.r + j⟩
    else
      (blockRest lwsPre i.block.data j).map fun block =>
        ⟨s.q.modify 0 fun i => { i with block := block }, s.ctx, s.copied ++ i.block.data.take j,
          s.r + j⟩

/-- `queue_read(q, buf, n)` -/
def queueRead (lwsPre : Nat) (q : Queue) (ctx : JSContext) (n : Nat) : Option QueueReading :=
  readItems lwsPre q.items n ⟨q, ctx, [], 0⟩

/-- The first `n` bytes are copied and counted, the rest of the bytes is what is left, the items
are counted, and those that end the stream stay. -/
def ReadsFront (lwsPre : Nat) (q : Queue) (ctx : JSContext) (n : Nat) : Prop :=
  ∃ t, queueRead lwsPre q ctx n = some t ∧
    t.copied = (itemsBytes q.items).take n ∧ t.r = min n (queueBytes q) ∧
    itemsBytes t.q.items = (itemsBytes q.items).drop n ∧ t.q.size = t.q.items.length ∧
    t.q.items.filter (·.done) = q.items.filter (·.done)

/-- The read ends between two items, or takes all there is. -/
def EndsBetween (items : List QueueItem) (n : Nat) : Prop :=
  ∃ front rest, items = front ++ rest ∧
    (itemsBytes front).length = min n (itemsBytes items).length

/-- No more bytes are asked for than there are up to an item that ends the stream, with its own. -/
def StopsBeforeEnd (items : List QueueItem) (n : Nat) : Prop :=
  ∀ front i rest, items = front ++ i :: rest → i.done = true →
    n < (itemsBytes front).length + i.block.size

variable {lwsPre n j : Nat} {items front rest : List QueueItem} {i : QueueItem} {s t : QueueReading}
  {d : Bytes} {block : ByteBlock}

/-! ## The items that are taken off -/

/-- An item of which nothing is left. -/
def QueueReading.consume (s : QueueReading) (i : QueueItem) : QueueReading :=
  ⟨s.q.delHead, callUnref s.ctx i.unref, s.copied ++ i.block.data, s.r + i.block.size⟩

theorem readItems_consume (h : i.block.size ≤ n) :
    readItems lwsPre (i :: items) n s = readItems lwsPre items (n - i.block.size) (s.consume i) := by
  have hall : i.block.data.take i.block.size = i.block.data := List.take_length
  simp only [readItems, Nat.min_eq_left h, Nat.sub_self, hall, if_true]
  rfl

theorem readItems_stop (h : n < i.block.size) :
    readItems lwsPre (i :: items) n s = (blockRest lwsPre i.block.data n).map fun block =>
      ⟨s.q.modify 0 fun i => { i with block := block }, s.ctx, s.copied ++ i.block.data.take n,
        s.r + n⟩ := by
  have hleft : i.block.size - n ≠ 0 := by omega
  simp only [readItems, Nat.min_eq_right (Nat.le_of_lt h), if_neg hleft]

theorem readItems_front : ∀ (front : List QueueItem) {n : Nat} {s : QueueReading},
    (itemsBytes front).length ≤ n →
    readItems lwsPre (front ++ rest) n s
      = readItems lwsPre rest (n - (itemsBytes front).length) (front.foldl .consume s) := by
  intro front
  induction front with
  | nil =>
    intro n s _
    rfl
  | cons i front ih =>
    intro n s h
    rw [itemsBytes_cons, List.length_append] at h
    have hsize : i.block.size ≤ n := Nat.le_trans (Nat.le_add_right _ _) h
    have hfront : (itemsBytes front).length ≤ n - i.block.size := Nat.le_sub_of_add_le' h
    rw [List.cons_append, readItems_consume hsize, ih hfront, Nat.sub_sub, List.foldl_cons,
      itemsBytes_cons, List.length_append]
    rfl

theorem foldl_consume (front : List QueueItem) : ∀ s : QueueReading,
    (front.foldl .consume s).q.items = s.q.items.drop front.length ∧
    (front.foldl .consume s).copied = s.copied ++ itemsBytes front ∧
    (front.foldl .consume s).r = s.r + (itemsBytes front).length := by
  induction front with
  | nil =>
    intro s
    exact ⟨rfl, (List.append_nil _).symm, rfl⟩
  | cons i front ih =>
    intro s
    obtain ⟨hitems, hcopied, hr⟩ := ih (s.consume i)
    refine ⟨?_, ?_, ?_⟩
    · rw [List.foldl_cons, hitems, QueueReading.consume, delHead_items, List.drop_tail]
      rfl
    · rw [List.foldl_cons, hcopied, QueueReading.consume, itemsBytes_cons, List.append_assoc]
    · rw [List.foldl_cons, hr, QueueReading.consume, itemsBytes_cons, List.length_append,
        Nat.add_assoc]
      rfl

/-- Where the loop ends: at the first item that has more bytes than are still asked for. -/
theorem exists_stop (items : List QueueItem) : ∀ n : Nat, ∃ front rest, items = front ++ rest ∧
    (itemsBytes front).length ≤ n ∧
    ∀ i ∈ rest.head?, n < (itemsBytes front).length + i.block.size := by
  induction items with
  | nil =>
    intro n
    exact ⟨[], [], rfl, Nat.zero_le n, nofun⟩
  | cons i items ih =>
    intro n
    by_cases hsize : i.block.size ≤ n
    · obtain ⟨front, rest, rfl, hle, hstop⟩ := ih (n - i.block.size)
      have hlength : (itemsBytes (i :: front)).length = i.block.size + (itemsBytes front).length := by
        rw [itemsBytes_cons, List.length_append]
        rfl
      refine ⟨i :: front, rest, rfl, by omega, ?_⟩
      intro j hj
      have hlt := hstop j hj
      omega
    · refine ⟨[], i :: items, rfl, Nat.zero_le n, ?_⟩
      intro j hj
      obtain rfl := Option.some.inj hj
      rw [itemsBytes_nil, List.length_nil]
      omega

/-! ## The conditions at the end of the loop -/

/-- The items that end the stream are behind the last item that is taken off. -/
theorem stopsBeforeEnd_iff (hle : (itemsBytes front).length ≤ n)
    (hstop : ∀ i ∈ rest.head?, n < (itemsBytes front).length + i.block.size) :
    StopsBeforeEnd (front ++ rest) n ↔ OpenItems front := by
  refine ⟨?_, ?_⟩
  · intro h i hi
    obtain ⟨before, after, rfl⟩ := List.append_of_mem hi
    have hlt := h before i (after ++ rest) (by simp)
    rw [itemsBytes_append, itemsBytes_cons, List.length_append, List.length_append] at hle
    have hsize : i.block.size = i.block.data.length := rfl
    cases hdone : i.done with
    | false => rfl
    | true =>
      have := hlt hdone
      omega
  · intro hopen before i after heq hdone
    rcases List.append_eq_append_iff.1 heq with ⟨between, hbefore, hrest⟩ | ⟨between, hfront, hafter⟩
    · -- `i` is the item the loop stops at or one behind it
      rw [hbefore, itemsBytes_append, List.length_append]
      cases between with
      | nil =>
        have hlt := hstop i (by rw [hrest]; rfl)
        omega
      | cons k between =>
        have hlt := hstop k (by rw [hrest]; rfl)
        have hsize : k.block.size = k.block.data.length := rfl
        rw [itemsBytes_cons, List.length_append]
        omega
    · cases between with
      | nil =>
        have hlt := hstop i (by rw [← List.nil_append rest, ← hafter]; rfl)
        rw [hfront, List.append_nil] at hlt
        exact hlt
      | cons k between =>
        obtain ⟨rfl, -⟩ := List.cons_eq_cons.1 hafter
        have hopen' := hopen i (by rw [hfront]; simp)
        rw [hopen'] at hdone
        cases hdone

/-- No item is taken in part. -/
theorem endsBetween_iff (hle : (itemsBytes front).length ≤ n)
    (hstop : ∀ i ∈ rest.head?, n < (itemsBytes front).length + i.block.size) :
    EndsBetween (front ++ rest) n ↔ rest = [] ∨ n = (itemsBytes front).length := by
  have hlength : (itemsBytes (front ++ rest)).length
      = (itemsBytes front).length + (itemsBytes rest).length := by
    rw [itemsBytes_append, List.length_append]
  cases rest with
  | nil =>
    refine iff_of_true ⟨front, [], rfl, ?_⟩ (Or.inl rfl)
    rw [hlength, itemsBytes_nil, List.length_nil]
    omega
  | cons i rest =>
    have hlt := hstop i rfl
    have hsize : i.block.size = i.block.data.length := rfl
    rw [itemsBytes_cons, List.length_append] at hlength
    have hmin : min n (itemsBytes (front ++ i :: rest)).length = n := by omega
    unfold EndsBetween
    rw [hmin]
    refine ⟨?_, ?_⟩
    · rintro ⟨before, after, heq, hn⟩
      refine Or.inr ?_
      rcases List.append_eq_append_iff.1 heq with ⟨between, hbefore, hrest⟩ | ⟨between, hfront, -⟩
      · rw [hbefore, itemsBytes_append, List.length_append] at hn
        cases between with
        | nil => exact hn.symm
        | cons k between =>
          obtain ⟨rfl, -⟩ := List.cons_eq_cons.1 hrest
          rw [itemsBytes_cons, List.length_append] at hn
          omega
      · rw [hfront, itemsBytes_append, List.length_append] at hle
        rw [hfront, itemsBytes_append, List.length_append]
        omega
    · rintro (hnil | hn)
      · cases hnil
      · exact ⟨front, i :: rest, rfl, hn.symm⟩

/-! ## The item the loop stops at -/

theorem blockRest_zero : blockRest lwsPre d 0 = some (some d) := by
  simp [blockRest, blockCopy]

/-- When `j` bytes were copied, `j` bytes more are missing. -/
theorem blockRest_short (hj : 0 < j) (hlt : j < d.length) (h : blockRest lwsPre d j = some block) :
    block.size < d.length - j := by
  unfold blockRest at h
  dsimp only at h
  split at h
  · obtain rfl := Option.some.inj h
    rw [blockCopy, ByteBlock.size_some, List.length_take, List.length_drop]
    omega
  · split at h
    · cases h
    · obtain rfl := Option.some.inj h
      rw [ByteBlock.size_none]
      omega

/-- The items that end the stream and stay. -/
theorem filter_done_iff : (rest.filter (·.done)) = ((front ++ rest).filter (·.done)) ↔
    OpenItems front := by
  rw [List.filter_append, List.self_eq_append_left, List.filter_eq_nil_iff]
  unfold OpenItems
  simp only [Bool.not_eq_true]

/-- **`queue_read` by the items it takes off.** -/
theorem queueRead_eq {q : Queue} {ctx : JSContext} (hq : q.items = front ++ rest)
    (hle : (itemsBytes front).length ≤ n) :
    queueRead lwsPre q ctx n = readItems lwsPre rest (n - (itemsBytes front).length)
      (front.foldl .consume ⟨q, ctx, [], 0⟩) := by
  unfold queueRead
  rw [hq]
  exact readItems_front front hle

variable {q : Queue} {ctx : JSContext}

theorem queueRead_all (hle : (itemsBytes q.items).length ≤ n) :
    ∃ t, queueRead lwsPre q ctx n = some t ∧ t.copied = itemsBytes q.items ∧
      t.r = queueBytes q ∧ t.q.items = [] := by
  obtain ⟨hitems, hcopied, hr⟩ := foldl_consume q.items ⟨q, ctx, [], 0⟩
  refine ⟨_, queueRead_eq (List.append_nil _).symm hle, hcopied, ?_, ?_⟩
  · rw [hr, queueBytes_eq, Nat.zero_add]
  · rw [hitems, List.drop_length]

theorem all_taken (hq : q.items = front) (hle : (itemsBytes front).length ≤ n) :
    ReadsFront lwsPre q ctx n ↔ OpenItems front := by
  subst hq
  obtain ⟨t, hread, hcopied, hr, hitems⟩ := @queueRead_all lwsPre n q ctx hle
  have hdone : t.q.items.filter (·.done) = q.items.filter (·.done) ↔ OpenItems q.items := by
    rw [hitems, ← @filter_done_iff q.items [], List.append_nil]
  refine ⟨?_, ?_⟩
  · rintro ⟨t', hread', -, -, -, -, hdone'⟩
    obtain rfl := Option.some.inj (hread.symm.trans hread')
    exact hdone.1 hdone'
  · intro hopen
    refine ⟨t, hread, ?_, ?_, ?_, t.q.size_eq, hdone.2 hopen⟩
    · rw [hcopied, List.take_of_length_le hle]
    · rw [hr, Nat.min_eq_right (by rw [queueBytes_eq]; exact hle)]
    · rw [hitems, List.drop_of_length_le hle]
      rfl

theorem queueRead_stop (hq : q.items = front ++ i :: rest) (hle : (itemsBytes front).length ≤ n)
    (hlt : n < (itemsBytes front).length + i.block.size)
    (hblock : blockRest lwsPre i.block.data (n - (itemsBytes front).length) = some block) :
    ∃ t, queueRead lwsPre q ctx n = some t ∧ t.copied = (itemsBytes q.items).take n ∧
      t.r = min n (queueBytes q) ∧ t.q.items = { i with block := block } :: rest := by
  obtain ⟨hitems, hcopied, hr⟩ := foldl_consume front ⟨q, ctx, [], 0⟩
  have hread := @queueRead_eq lwsPre n _ _ q ctx hq hle
  rw [readItems_stop (by omega), hblock] at hread
  have hbytes : itemsBytes q.items = itemsBytes front ++ (i.block.data ++ itemsBytes rest) := by
    rw [hq, itemsBytes_append, itemsBytes_cons]
  have hsize : i.block.size = i.block.data.length := rfl
  refine ⟨_, hread, ?_, ?_, ?_⟩
  · have htake : i.block.data.take (n - (itemsBytes front).length)
        = (i.block.data ++ itemsBytes rest).take (n - (itemsBytes front).length) :=
      (List.take_append_of_le_length (by omega)).symm
    rw [hbytes, List.take_append, List.take_of_length_le hle, ← htake, hcopied]
    rfl
  · have hlength : (itemsBytes q.items).length
        = (itemsBytes front).length + (i.block.size + (itemsBytes rest).length) := by
      rw [hbytes, List.length_append, List.length_append]
      rfl
    have hmin : min n (queueBytes q) = n := Nat.min_eq_left (by rw [queueBytes_eq]; omega)
    rw [hmin]
    dsimp only at hr ⊢
    rw [hr]
    omega
  · rw [modify_items, hitems, hq, List.drop_left]
    rfl

theorem stop_between (hq : q.items = front ++ i :: rest) (hn : n = (itemsBytes front).length)
    (hsize : 0 < i.block.size) : ReadsFront lwsPre q ctx n ↔ OpenItems front := by
  have hblock : blockRest lwsPre i.block.data (n - (itemsBytes front).length)
      = some (some i.block.data) := by
    rw [hn, Nat.sub_self, blockRest_zero]
  obtain ⟨t, hread, hcopied, hr, hitems⟩ :=
    @queueRead_stop _ _ _ _ _ _ q ctx hq (Nat.le_of_eq hn.symm) (by omega) hblock
  have hsame : { i with block := some i.block.data } = i := by
    obtain ⟨block, binary, done, unref⟩ := i
    cases block with
    | none => exact absurd hsize (Nat.lt_irrefl 0)
    | some d => rfl
  rw [hsame] at hitems
  have hleft : itemsBytes (i :: rest) = (itemsBytes q.items).drop n := by
    rw [hq, itemsBytes_append, hn, List.drop_left]
  refine ⟨?_, ?_⟩
  · rintro ⟨t', hread', -, -, -, -, hdone⟩
    obtain rfl := Option.some.inj (hread.symm.trans hread')
    rw [hitems, hq] at hdone
    exact filter_done_iff.1 hdone
  · intro hopen
    refine ⟨t, hread, hcopied, hr, ?_, t.q.size_eq, ?_⟩
    · rw [hitems, hleft]
    · rw [hitems, hq]
      exact filter_done_iff.2 hopen

theorem stop_inside (hq : q.items = front ++ i :: rest) (hlt : (itemsBytes front).length < n)
    (hstop : n < (itemsBytes front).length + i.block.size) : ¬ ReadsFront lwsPre q ctx n := by
  rintro ⟨t, hread, -, -, hleft, -, -⟩
  have hsize : i.block.size = i.block.data.length := rfl
  cases hblock : blockRest lwsPre i.block.data (n - (itemsBytes front).length) with
  | none =>
    rw [queueRead_eq hq (Nat.le_of_lt hlt), readItems_stop (by omega), hblock] at hread
    cases hread
  | some block =>
    obtain ⟨t', hread', -, -, hitems⟩ :=
      @queueRead_stop _ _ _ _ _ _ q ctx hq (Nat.le_of_lt hlt) hstop hblock
    obtain rfl := Option.some.inj (hread.symm.trans hread')
    have hshort := blockRest_short (by omega) (by omega) hblock
    have hlength := congrArg List.length hleft
    rw [hitems, hq, itemsBytes_cons, List.length_append, List.length_drop, itemsBytes_append,
      itemsBytes_cons, List.length_append, List.length_append] at hlength
    have hblocksize : block.size = block.data.length := rfl
    dsimp only at hlength
    omega

/-- **When `queue_read` reads the front of the queue.** It does if and only if the read ends
between two items or takes everything, and does not reach the item that ends the stream. What is
copied and counted is right wherever the read ends (`queueRead_all`, `queueRead_stop`). -/
theorem readsFront_iff (lwsPre : Nat) (q : Queue) (ctx : JSContext) (n : Nat) :
    ReadsFront lwsPre q ctx n ↔ EndsBetween q.items n ∧ StopsBeforeEnd q.items n := by
  obtain ⟨front, rest, hq, hle, hstop⟩ := exists_stop q.items n
  rw [hq, stopsBeforeEnd_iff hle hstop, endsBetween_iff hle hstop]
  cases rest with
  | nil =>
    rw [List.append_nil] at hq
    rw [and_iff_right (Or.inl rfl)]
    exact all_taken hq hle
  | cons i rest =>
    have hlt := hstop i rfl
    by_cases hn : n = (itemsBytes front).length
    · rw [and_iff_right (Or.inr hn)]
      exact stop_between hq hn (by omega)
    · refine iff_of_false (stop_inside hq (by omega) hlt) ?_
      rintro ⟨hnil | heq, -⟩
      · cases hnil
      · exact hn heq

/-- One of four bytes is read, and the last one is gone as well. The item that ends the stream is
taken off with the last byte. -/
theorem queueRead_loses :
    ¬ ReadsFront 16 ⟨[chunkItem [1, 2, 3, 4]], 1, false, rfl⟩ .new 1 ∧
    ¬ ReadsFront 16 ⟨[chunkItem [1], doneItem], 2, false, rfl⟩ .new 1 := by
  refine ⟨?_, ?_⟩
  · rintro ⟨t, hread, -, -, hleft, -⟩
    obtain rfl := Option.some.inj hread
    exact absurd hleft (by decide)
  · rintro ⟨t, hread, -, -, -, -, hdone⟩
    obtain rfl := Option.some.inj hread
    exact absurd hdone (by decide)

end QjsNet
