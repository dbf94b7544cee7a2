import QjsNet.Utils
import QjsNet.Lib.Memory

/- Appending to a byte buffer, pointer by pointer (`buffer_append`, `buffer_realloc` and
   `block_realloc` in `buffer.c`).

   A pointer is an address, and 0 is `NULL`. What `realloc` answers is a parameter: nothing,
   or an address and what memory holds there besides the cells that were copied. The sizes
   are those of things in memory, so that their sums do not wrap round.

   A block without room is reallocated. `block_realloc` sets `start` and `end` to `NULL`
   when that fails, and `buffer_append` returns -1 over a buffer that has lost its memory
   while `read`, `write` and `alloc` still point into it. Only a buffer that had none is
   as it was (`append_atomic_iff`).

   Correspondence (C ↔ Lean):
     `buffer_AVAIL`, `buffer_HEAD`, `buffer_TAIL` ↔ `RawBuffer.avail`, `.head`, `.tail`
     `block_ALLOC`       ↔ `RawBuffer.blockAlloc`
     `block_realloc`     ↔ `blockRealloc`
     `buffer_free`, `buffer_realloc` ↔ `RawBuffer.free`, `RawBuffer.realloc`, `none` for a
                                       failed assertion
     `buffer_append`     ↔ `RawBuffer.append` -/
namespace QjsNet

open Memory

structure RawBuffer where
  start : Nat
  stop : Nat
  read : Nat
  write : Nat
  alloc : Nat
  deriving DecidableEq, Repr

/-- What `realloc` answers when it succeeds. -/
structure Allocation where
  ptr : Nat
  ptr_pos : 0 < ptr
  /-- The memory, but for what was copied. -/
  rest : Nat → UInt8

namespace RawBuffer

def avail (b : RawBuffer) : Nat := sizeSub b.stop b.write

def head (b : RawBuffer) : Nat := sizeSub b.write b.start

def tail (b : RawBuffer) : Nat := sizeSub b.read b.start

def blockAlloc (lwsPre : Nat) (b : RawBuffer) : Nat := if b.start = 0 then 0 else b.start - lwsPre

/-- The size of the memory that `block_ALLOC` points to. -/
def allocated (lwsPre : Nat) (b : RawBuffer) : Nat :=
  if b.start = 0 then 0 else lwsPre + (b.stop - b.start)

end RawBuffer

/-- The memory, the buffer and what is returned. -/
def blockRealloc (lwsPre : Nat) (mem : Nat → UInt8) (b : RawBuffer) (size : Nat)
    (answer : Option Allocation) : (Nat → UInt8) × RawBuffer × Nat :=
  if size = 0 then (mem, { b with start := 0, stop := 0 }, 0)
  else
    match answer with
    | some a => (copy mem a.rest a.ptr (b.blockAlloc lwsPre) (min (b.allocated lwsPre) (size + lwsPre)),
        { b with start := a.ptr + lwsPre, stop := a.ptr + lwsPre + size }, a.ptr)
    | none => (mem, { b with start := 0, stop := 0 }, 0)

namespace RawBuffer

def free (b : RawBuffer) : RawBuffer :=
  let b := if b.alloc ≠ 0 then { b with start := 0, stop := 0 } else b
  { b with read := 0, write := 0, alloc := 0 }

/-- `if(buf->alloc == 0 && buf->start && wr) memcpy(x + LWS_PRE, buf->start, wr);` -/
def copyOld (lwsPre : Nat) (mem : Nat → UInt8) (b : RawBuffer) (x wr : Nat) : Nat → UInt8 :=
  if b.alloc = 0 ∧ b.start ≠ 0 ∧ wr ≠ 0 then copy mem mem (x + lwsPre) b.start wr else mem

def realloc (lwsPre : Nat) (mem : Nat → UInt8) (b : RawBuffer) (size : Nat)
    (answer : Option Allocation) : Option ((Nat → UInt8) × RawBuffer × Nat) :=
  if size = 0 then some (mem, b.free, 0)
  else if size < b.head then none
  else
    let (mem, b', x) := blockRealloc lwsPre mem b size answer
    if x = 0 then some (mem, b', 0)
    else some (b'.copyOld lwsPre mem x b.head,
      { b' with alloc := x, write := b'.start + b.head, read := b'.start + b.tail }, x)

/-- The bytes and a zero behind them. -/
def put (mem : Nat → UInt8) (b : RawBuffer) (x : Bytes) : (Nat → UInt8) × RawBuffer × Int :=
  (store (store mem b.write x) (b.write + x.length) [0], { b with write := b.write + x.length },
    x.length)

def append (lwsPre : Nat) (mem : Nat → UInt8) (b : RawBuffer) (x : Bytes)
    (answer : Option Allocation) : Option ((Nat → UInt8) × RawBuffer × Int) :=
  if b.avail < x.length + 1 then
    (b.realloc lwsPre mem (b.head + x.length + 1) answer).map fun (mem, b, p) =>
      if p = 0 then (mem, b, -1) else b.put mem x
  else some (b.put mem x)

/-- The bytes from `start` to `write`. -/
def content (mem : Nat → UInt8) (b : RawBuffer) : Bytes := span mem b.start (b.write - b.start)

end RawBuffer

/-- A buffer whose memory is of the heap, or one without memory. -/
structure HeapBuffer (lwsPre : Nat) (b : RawBuffer) : Prop where
  start_le : b.start ≤ b.read
  read_le : b.read ≤ b.write
  write_le : b.write ≤ b.stop
  owned : (b.start = 0 ∧ b.stop = 0 ∧ b.alloc = 0) ∨ (0 < b.alloc ∧ b.start = b.alloc + lwsPre)

/-- The bytes are appended and their number returned, or nothing has changed and -1 is returned. -/
def AppendsAtomically (lwsPre : Nat) (mem : Nat → UInt8) (b : RawBuffer) (x : Bytes)
    (answer : Option Allocation) : Prop :=
  ∃ mem' b' r, b.append lwsPre mem x answer = some (mem', b', r) ∧
    ((r = x.length ∧ b'.content mem' = b.content mem ++ x ∧
        b'.read - b'.start = b.read - b.start ∧ HeapBuffer lwsPre b') ∨
      (r = -1 ∧ b' = b ∧ b'.content mem' = b.content mem))

variable {lwsPre : Nat} {mem : Nat → UInt8} {b : RawBuffer} {x : Bytes} {a : Allocation}
  {answer : Option Allocation}

namespace HeapBuffer

theorem head_eq (h : HeapBuffer lwsPre b) : b.head = b.write - b.start :=
  sizeSub_of_le (Nat.le_trans h.start_le h.read_le)

theorem tail_eq (h : HeapBuffer lwsPre b) : b.tail = b.read - b.start := sizeSub_of_le h.start_le

theorem avail_eq (h : HeapBuffer lwsPre b) : b.avail = b.stop - b.write := sizeSub_of_le h.write_le

end HeapBuffer

/-! ## There is room -/

theorem put_content (h : b.start ≤ b.write) :
    (b.put mem x).2.1.content (b.put mem x).1 = b.content mem ++ x := by
  have hsum : b.write + x.length - b.start = (b.write - b.start) + x.length := by omega
  have hend : b.start + (b.write - b.start) = b.write := by omega
  show span _ b.start (b.write + x.length - b.start) = _
  rw [hsum, RawBuffer.put, span_store_before [0] (by omega), span_add, hend, span_store,
    span_store_before x (by omega)]
  rfl

theorem put_heap (h : HeapBuffer lwsPre b) (hroom : x.length + 1 ≤ b.stop - b.write) :
    HeapBuffer lwsPre (b.put mem x).2.1 := by
  have hread := h.read_le
  refine ⟨h.start_le, ?_, ?_, h.owned⟩
  · show b.read ≤ b.write + x.length
    omega
  · show b.write + x.length ≤ b.stop
    omega

theorem append_room (h : HeapBuffer lwsPre b) (hroom : x.length + 1 ≤ b.stop - b.write) :
    AppendsAtomically lwsPre mem b x answer := by
  refine ⟨_, _, _, ?_, Or.inl ⟨rfl, put_content (Nat.le_trans h.start_le h.read_le), rfl,
    put_heap h hroom⟩⟩
  · rw [RawBuffer.append, if_neg (by rw [h.avail_eq]; omega)]
    rfl

/-! ## The memory grows -/

theorem realloc_content (h : HeapBuffer lwsPre b) {n m : Nat} (hn : n ≤ b.stop - b.start)
    (hm : n ≤ m) :
    span (copy mem a.rest a.ptr (b.blockAlloc lwsPre) (min (b.allocated lwsPre) (m + lwsPre)))
      (a.ptr + lwsPre) n = span mem b.start n := by
  rcases h.owned with ⟨hstart, hstop, -⟩ | ⟨hpos, hstart⟩
  · have hzero : n = 0 := by omega
    rw [hzero, span_zero, span_zero]
  · have hne : b.start ≠ 0 := by omega
    have halloc : b.blockAlloc lwsPre + lwsPre = b.start := by
      rw [RawBuffer.blockAlloc, if_neg hne]
      omega
    have hsize : lwsPre + n ≤ min (b.allocated lwsPre) (m + lwsPre) := by
      rw [RawBuffer.allocated, if_neg hne]
      omega
    have hwhole := @span_copy _ (b.blockAlloc lwsPre) a.ptr _ _ mem a.rest hsize
    rw [span_add, span_add, halloc] at hwhole
    exact List.append_inj_right hwhole (by rw [length_span, length_span])

/-- The buffer after a reallocation. -/
def RawBuffer.moved (lwsPre : Nat) (b : RawBuffer) (a : Allocation) (size : Nat) : RawBuffer where
  start := a.ptr + lwsPre
  stop := a.ptr + lwsPre + size
  read := a.ptr + lwsPre + (b.read - b.start)
  write := a.ptr + lwsPre + (b.write - b.start)
  alloc := a.ptr

/-- A buffer with memory of its own does not copy a second time, one without has nothing to copy. -/
theorem copyOld_eq (h : HeapBuffer lwsPre b) (start stop : Nat) (mem : Nat → UInt8) (x : Nat) :
    RawBuffer.copyOld lwsPre mem { b with start := start, stop := stop } x b.head = mem := by
  refine if_neg ?_
  rintro ⟨halloc, -, hwr⟩
  rcases h.owned with ⟨hstart, hstop, -⟩ | ⟨hpos, -⟩
  · have hwrite := h.write_le
    rw [h.head_eq] at hwr
    omega
  · exact Nat.ne_of_gt hpos halloc

theorem realloc_moves (h : HeapBuffer lwsPre b) {size : Nat} (hpos : 0 < size)
    (hsize : b.write - b.start ≤ size) :
    b.realloc lwsPre mem size (some a) =
      some (copy mem a.rest a.ptr (b.blockAlloc lwsPre) (min (b.allocated lwsPre) (size + lwsPre)),
        b.moved lwsPre a size, a.ptr) := by
  have hhead : ¬ size < b.head := by
    rw [h.head_eq]
    omega
  have hblock : blockRealloc lwsPre mem b size (some a) =
      (copy mem a.rest a.ptr (b.blockAlloc lwsPre) (min (b.allocated lwsPre) (size + lwsPre)),
        { b with start := a.ptr + lwsPre, stop := a.ptr + lwsPre + size }, a.ptr) :=
    if_neg (Nat.ne_of_gt hpos)
  unfold RawBuffer.realloc
  rw [if_neg (Nat.ne_of_gt hpos), if_neg hhead, hblock]
  dsimp only
  rw [if_neg (Nat.ne_of_gt a.ptr_pos), copyOld_eq h, h.head_eq, h.tail_eq]
  rfl

theorem moved_heap (h : HeapBuffer lwsPre b) {size : Nat} (hsize : b.write - b.start ≤ size) :
    HeapBuffer lwsPre (b.moved lwsPre a size) := by
  have hread := h.read_le
  refine ⟨Nat.le_add_right _ _, ?_, ?_, Or.inr ⟨a.ptr_pos, rfl⟩⟩
  · show a.ptr + lwsPre + (b.read - b.start) ≤ a.ptr + lwsPre + (b.write - b.start)
    omega
  · show a.ptr + lwsPre + (b.write - b.start) ≤ a.ptr + lwsPre + size
    omega

theorem append_grows (h : HeapBuffer lwsPre b) (hfull : b.stop - b.write < x.length + 1) :
    AppendsAtomically lwsPre mem b x (some a) := by
  have hread := h.read_le
  have hwrite := h.write_le
  have hhead := h.head_eq
  let size := b.head + x.length + 1
  have hsize : b.write - b.start ≤ size := by omega
  let mem' := copy mem a.rest a.ptr (b.blockAlloc lwsPre) (min (b.allocated lwsPre) (size + lwsPre))
  have hmoved : b.realloc lwsPre mem size (some a) = some (mem', b.moved lwsPre a size, a.ptr) :=
    realloc_moves h (Nat.succ_pos _) hsize
  have hheap : HeapBuffer lwsPre (b.moved lwsPre a size) := moved_heap h hsize
  have hcontent : (b.moved lwsPre a size).content mem' = b.content mem := by
    have hlength : (b.moved lwsPre a size).write - (b.moved lwsPre a size).start = b.write - b.start :=
      Nat.add_sub_cancel_left ..
    unfold RawBuffer.content
    rw [hlength]
    exact realloc_content h (by omega) hsize
  have happend : b.append lwsPre mem x (some a) = some ((b.moved lwsPre a size).put mem' x) := by
    rw [RawBuffer.append, if_pos (by rw [h.avail_eq]; exact hfull), hmoved, Option.map_some]
    dsimp only
    rw [if_neg (Nat.ne_of_gt a.ptr_pos)]
  have hroom : x.length + 1 ≤ (b.moved lwsPre a size).stop - (b.moved lwsPre a size).write := by
    show x.length + 1 ≤ a.ptr + lwsPre + size - (a.ptr + lwsPre + (b.write - b.start))
    omega
  refine ⟨_, _, _, happend, Or.inl ⟨rfl, ?_, ?_, @put_heap _ mem' _ x hheap hroom⟩⟩
  · rw [← hcontent]
    exact put_content (Nat.le_trans hheap.start_le hheap.read_le)
  · exact Nat.add_sub_cancel_left ..

/-! ## There is no memory -/

/-- The buffer that `block_realloc` leaves behind. -/
theorem append_fails (h : HeapBuffer lwsPre b) (hfull : b.stop - b.write < x.length + 1) :
    b.append lwsPre mem x none = some (mem, { b with start := 0, stop := 0 }, -1) := by
  have hsize : ¬ b.head + x.length + 1 < b.head := by omega
  rw [RawBuffer.append, if_pos (by rw [h.avail_eq]; exact hfull), RawBuffer.realloc,
    if_neg (Nat.succ_ne_zero _), if_neg hsize]
  rfl

theorem HeapBuffer.without_memory (h : HeapBuffer lwsPre b) (hstart : b.start = 0) :
    { b with start := 0, stop := 0 } = b := by
  have hstop : b.stop = 0 := by
    rcases h.owned with ⟨-, hstop, -⟩ | ⟨hpos, heq⟩
    · exact hstop
    · omega
  cases b with
  | mk start stop read write alloc =>
    obtain rfl : start = 0 := hstart
    obtain rfl : stop = 0 := hstop
    rfl

/-- **When `buffer_append` is atomic.** It is if and only if there is room for the bytes and the
zero behind them, or `realloc` succeeds, or the buffer had no memory. -/
theorem append_atomic_iff (h : HeapBuffer lwsPre b) (mem : Nat → UInt8) (x : Bytes)
    (answer : Option Allocation) :
    AppendsAtomically lwsPre mem b x answer ↔
      x.length + 1 ≤ b.stop - b.write ∨ answer.isSome ∨ b.start = 0 := by
  by_cases hroom : x.length + 1 ≤ b.stop - b.write
  · exact iff_of_true (append_room h hroom) (Or.inl hroom)
  · have hfull : b.stop - b.write < x.length + 1 := by omega
    cases answer with
    | some a => exact iff_of_true (append_grows h hfull) (Or.inr (Or.inl rfl))
    | none =>
      have hfails := @append_fails _ mem _ x h hfull
      refine ⟨?_, ?_⟩
      · rintro ⟨mem', b', r, happend, hresult⟩
        cases hfails.symm.trans happend
        rcases hresult with ⟨hr, -⟩ | ⟨-, hsame, -⟩
        · omega
        · exact Or.inr (Or.inr (congrArg RawBuffer.start hsame).symm)
      · rintro (hle | hsome | hstart)
        · exact absurd hle hroom
        · cases hsome
        · have hsame := h.without_memory hstart
          exact ⟨_, _, _, hfails, Or.inr ⟨rfl, hsame, by rw [hsame]⟩⟩

/-- Eight bytes at 116, of which five are written: two more fit. -/
theorem append_atomic_room : AppendsAtomically 16 (fun _ => 0) ⟨116, 124, 117, 121, 100⟩ [1, 2] none :=
  (append_atomic_iff ⟨by decide, by decide, by decide, Or.inr (by decide)⟩ _ _ _).2
    (Or.inl (by decide))

/-- Three more do not, and without memory for them the buffer loses what it had. -/
theorem append_loses : HeapBuffer 16 ⟨116, 124, 117, 121, 100⟩ ∧
    ¬ AppendsAtomically 16 (fun _ => 0) ⟨116, 124, 117, 121, 100⟩ [1, 2, 3] none := by
  refine ⟨⟨by decide, by decide, by decide, Or.inr (by decide)⟩, ?_⟩
  rintro ⟨mem', b', r, happend, hresult⟩
  cases happend
  rcases hresult with ⟨hr, -⟩ | ⟨-, hsame, -⟩
  · exact absurd hr (by decide)
  · exact absurd hsame (by decide)

end QjsNet
