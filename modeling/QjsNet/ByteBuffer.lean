import Mathlib.Data.List.TakeDrop
import QjsNet.JSValue

/- Byte buffers that grow (`ByteBuffer` in `buffer.c`).

   `mem` is the memory from `start` to `end`, and `read` and `write` are offsets into
   it. The memory behind `write` is there to be read, whatever it holds: what was written
   before a reset, or what `realloc` has left there. `heap` gives the byte that is found at
   each offset when the memory first reaches that far. An allocation never fails.

   Correspondence (C ↔ Lean):
     `buffer_SIZE`                 ↔ `ByteBuffer.size`
     `buffer_alloc`, `buffer_realloc` ↔ `bufferAlloc`, `bufferRealloc`
     `buffer_grow`                 ↔ `bufferGrow`
     `buffer_append`               ↔ `bufferAppend`
     `buffer_write`                ↔ `bufferWrite`, `none` for a failed assertion
     `buffer_reset`                ↔ `bufferReset`
     `memcpy`, `memmove`, `memset` ↔ `overwrite`, `zeroFill` -/
namespace QjsNet

structure ByteBuffer where
  mem : Bytes
  read : Nat
  write : Nat
  write_le : write ≤ mem.length
  deriving DecidableEq, Repr

/-- `BUFFER_0()` -/
def ByteBuffer.new : ByteBuffer := ⟨[], 0, 0, Nat.le_refl 0⟩

def ByteBuffer.size (b : ByteBuffer) : Nat := b.mem.length

/-- The bytes from `start` to `write`. -/
def ByteBuffer.content (b : ByteBuffer) : Bytes := b.mem.take b.write

/-- The memory with the bytes `x` at an offset. -/
def overwrite (mem : Bytes) (offset : Nat) (x : Bytes) : Bytes :=
  mem.take offset ++ x ++ mem.drop (offset + x.length)

/-- The memory with zeros from an offset on. -/
def zeroFill (mem : Bytes) (offset : Nat) : Bytes :=
  mem.take offset ++ List.replicate (mem.length - offset) 0

/-- What is found behind a memory of `size` bytes that grows by `n`. -/
def freshBytes (heap : Nat → UInt8) (size n : Nat) : Bytes :=
  (List.range n).map fun k => heap (size + k)

def bufferGrow (heap : Nat → UInt8) (b : ByteBuffer) (size : Nat) : ByteBuffer :=
  ⟨b.mem ++ freshBytes heap b.mem.length size, b.read, b.write,
    Nat.le_trans b.write_le (List.length_append ▸ Nat.le_add_right _ _)⟩

theorem le_overwrite_length (mem : Bytes) (offset : Nat) (x : Bytes) :
    mem.length ≤ (overwrite mem offset x).length := by
  simp only [overwrite, List.length_append, List.length_take, List.length_drop]
  omega

theorem overwrite_length {mem x : Bytes} {offset : Nat} (h : offset + x.length ≤ mem.length) :
    (overwrite mem offset x).length = mem.length := by
  simp only [overwrite, List.length_append, List.length_take, List.length_drop]
  omega

theorem zeroFill_length {mem : Bytes} {offset : Nat} (h : offset ≤ mem.length) :
    (zeroFill mem offset).length = mem.length := by
  simp only [zeroFill, List.length_append, List.length_take, List.length_replicate]
  omega

def bufferWrite (b : ByteBuffer) (x : Bytes) : Option ByteBuffer :=
  if h : b.write + x.length ≤ b.mem.length then
    some ⟨overwrite b.mem b.write x, b.read, b.write + x.length, (overwrite_length h).symm ▸ h⟩
  else none

/-- `write` is moved, and the memory behind it is cleared. -/
def ByteBuffer.endAt (b : ByteBuffer) (mem : Bytes) (write : Nat) (h : write ≤ mem.length) :
    ByteBuffer := ⟨zeroFill mem write, b.read, write, (zeroFill_length h).symm ▸ h⟩

def bufferReset (b : ByteBuffer) : ByteBuffer := ⟨b.mem, 0, 0, Nat.zero_le _⟩

def bufferAlloc (heap : Nat → UInt8) (size : Nat) : ByteBuffer :=
  ⟨freshBytes heap 0 size, 0, 0, Nat.zero_le _⟩

/-- The memory with another size. -/
def resize (heap : Nat → UInt8) (mem : Bytes) (size : Nat) : Bytes :=
  (mem ++ freshBytes heap mem.length (size - mem.length)).take size

theorem resize_length (heap : Nat → UInt8) (mem : Bytes) (size : Nat) :
    (resize heap mem size).length = size := by
  simp only [resize, freshBytes, List.length_take, List.length_append, List.length_map,
    List.length_range]
  omega

/-- `size` is not zero here, which frees the memory. What is written has to fit. -/
def bufferRealloc (heap : Nat → UInt8) (b : ByteBuffer) (size : Nat) : Option ByteBuffer :=
  if h : b.write ≤ size then
    some ⟨resize heap b.mem size, b.read, b.write, (resize_length heap b.mem size).symm ▸ h⟩
  else none

/-- Bytes behind those written, and a zero that does not count. -/
def ByteBuffer.store (b : ByteBuffer) (x : Bytes) : Option ByteBuffer :=
  if h : b.write + (x ++ [0]).length ≤ b.mem.length then
    some ⟨overwrite b.mem b.write (x ++ [0]), b.read, b.write + x.length, by
      rw [overwrite_length h]
      exact Nat.le_trans (Nat.add_le_add_left (List.length_append ▸ Nat.le_add_right _ _) _) h⟩
  else none

def bufferAppend (heap : Nat → UInt8) (b : ByteBuffer) (x : Bytes) : Option ByteBuffer := do
  let b ← if b.size - b.write < x.length + 1 then bufferRealloc heap b (b.write + x.length + 1)
    else some b
  b.store x

variable {b b' b'' : ByteBuffer} {heap : Nat → UInt8} {x y : Bytes}

theorem length_content (b : ByteBuffer) : b.content.length = b.write := by
  rw [ByteBuffer.content, List.length_take, Nat.min_eq_left b.write_le]

theorem length_freshBytes (heap : Nat → UInt8) (size n : Nat) :
    (freshBytes heap size n).length = n := by
  rw [freshBytes, List.length_map, List.length_range]

theorem freshBytes_add (heap : Nat → UInt8) (size m n : Nat) :
    freshBytes heap size (m + n) = freshBytes heap size m ++ freshBytes heap (size + m) n := by
  simp only [freshBytes, List.range_add, List.map_append, List.map_map, Function.comp_def,
    Nat.add_assoc]

/-! ## Overwriting -/

theorem overwrite_take {mem : Bytes} {offset : Nat} (h : offset ≤ mem.length) (x : Bytes) :
    (overwrite mem offset x).take (offset + x.length) = mem.take offset ++ x := by
  have hlength : (mem.take offset ++ x).length = offset + x.length := by
    rw [List.length_append, List.length_take, Nat.min_eq_left h]
  exact List.take_left' hlength

theorem overwrite_drop {mem : Bytes} {offset : Nat} (h : offset ≤ mem.length) (x : Bytes) :
    (overwrite mem offset x).drop (offset + x.length) = mem.drop (offset + x.length) := by
  have hlength : (mem.take offset ++ x).length = offset + x.length := by
    rw [List.length_append, List.length_take, Nat.min_eq_left h]
  exact List.drop_left' hlength

theorem overwrite_overwrite {mem : Bytes} {offset : Nat} (h : offset ≤ mem.length) (x y : Bytes) :
    overwrite (overwrite mem offset x) (offset + x.length) y = overwrite mem offset (x ++ y) := by
  rw [overwrite, overwrite_take h, ← List.drop_drop, overwrite_drop h, List.drop_drop, overwrite,
    List.length_append, Nat.add_assoc, List.append_assoc (mem.take offset)]

/-! ## Growing and writing -/

theorem bufferGrow_content (heap : Nat → UInt8) (b : ByteBuffer) (n : Nat) :
    (bufferGrow heap b n).content = b.content := List.take_append_of_le_length b.write_le

theorem bufferGrow_room (heap : Nat → UInt8) (b : ByteBuffer) (n : Nat) :
    b.write + n ≤ (bufferGrow heap b n).mem.length := by
  rw [bufferGrow, List.length_append, length_freshBytes]
  exact Nat.add_le_add_right b.write_le n

theorem endAt_content {mem : Bytes} {write : Nat} (h : write ≤ mem.length) :
    (b.endAt mem write h).content = mem.take write := by
  have hlength : (mem.take write).length = write := by rw [List.length_take, Nat.min_eq_left h]
  exact List.take_left' hlength

/-- The bytes `x` were written, and the memory behind them is as before. -/
structure Wrote (b b' : ByteBuffer) (x : Bytes) : Prop where
  room : b.write + x.length ≤ b.mem.length
  mem : b'.mem = b.content ++ x ++ b.mem.drop (b.write + x.length)
  write : b'.write = b.write + x.length
  read : b'.read = b.read

theorem Wrote.content (h : Wrote b b' x) : b'.content = b.content ++ x := by
  have hlength : (b.content ++ x).length = b.write + x.length := by
    rw [List.length_append, length_content]
  rw [ByteBuffer.content, h.mem, h.write, ← hlength, List.take_left]

theorem Wrote.refl (b : ByteBuffer) : Wrote b b [] := by
  refine ⟨b.write_le, ?_, rfl, rfl⟩
  rw [List.append_nil]
  exact (List.take_append_drop b.write b.mem).symm

theorem Wrote.length (h : Wrote b b' x) : b'.mem.length = b.mem.length := by
  have hroom := h.room
  rw [h.mem]
  simp only [List.length_append, List.length_drop, length_content]
  omega

theorem Wrote.trans (h : Wrote b b' x) (h' : Wrote b' b'' y) : Wrote b b'' (x ++ y) := by
  have hlength : (b.content ++ x).length = b.write + x.length := by
    rw [List.length_append, length_content]
  refine ⟨?_, ?_, ?_, h'.read.trans h.read⟩
  · have hroom := h'.room
    rw [h.write, h.length] at hroom
    rwa [List.length_append, ← Nat.add_assoc]
  · have htail : b'.mem.drop (b'.write + y.length) = b.mem.drop (b.write + (x ++ y).length) := by
      rw [h.mem, h.write, ← hlength, ← List.drop_drop, List.drop_left, List.drop_drop,
        List.length_append, List.length_append, length_content, Nat.add_assoc]
    rw [h'.mem, h.content, htail, List.append_assoc b.content]
  · rw [h'.write, h.write, List.length_append, Nat.add_assoc]

theorem bufferWrite_wrote (h : b.write + x.length ≤ b.mem.length) :
    ∃ b', bufferWrite b x = some b' ∧ Wrote b b' x := by
  rw [bufferWrite, dif_pos h]
  exact ⟨_, rfl, h, rfl, rfl, rfl⟩

theorem bufferAlloc_content (heap : Nat → UInt8) (size : Nat) :
    (bufferAlloc heap size).content = [] := rfl

theorem bufferRealloc_spec (heap : Nat → UInt8) {size : Nat} (h : b.write ≤ size) :
    ∃ b', bufferRealloc heap b size = some b' ∧ b'.content = b.content ∧ b'.write = b.write ∧
      b'.mem.length = size := by
  rw [bufferRealloc, dif_pos h]
  refine ⟨_, rfl, ?_, rfl, resize_length heap b.mem size⟩
  show (resize heap b.mem size).take b.write = _
  rw [resize, List.take_take, Nat.min_eq_left h]
  exact List.take_append_of_le_length b.write_le

theorem store_content (h : b.write + x.length + 1 ≤ b.mem.length) :
    ∃ b', b.store x = some b' ∧ b'.content = b.content ++ x := by
  have hroom : b.write + (x ++ [0]).length ≤ b.mem.length := by
    rw [List.length_append]
    exact h
  rw [ByteBuffer.store, dif_pos hroom]
  refine ⟨_, rfl, ?_⟩
  have hlength : (b.content ++ x).length = b.write + x.length := by
    rw [List.length_append, length_content]
  show (overwrite b.mem b.write (x ++ [0])).take (b.write + x.length) = _
  rw [overwrite, ← ByteBuffer.content, ← List.append_assoc b.content, List.append_assoc, ← hlength,
    List.take_left]

/-- There is always room: `buffer_append` makes it. -/
theorem bufferAppend_content (heap : Nat → UInt8) (b : ByteBuffer) (x : Bytes) :
    ∃ b', bufferAppend heap b x = some b' ∧ b'.content = b.content ++ x := by
  have hle : b.write ≤ b.mem.length := b.write_le
  rw [bufferAppend]
  split
  · obtain ⟨b₁, h₁, hcontent, hwrite, hlength⟩ :=
      @bufferRealloc_spec b heap (b.write + x.length + 1) (by omega)
    have hroom : b₁.write + x.length + 1 ≤ b₁.mem.length := by omega
    obtain ⟨b', hstore, hb'⟩ := store_content hroom
    exact ⟨b', by rw [h₁]; exact hstore, by rw [hb', hcontent]⟩
  · next h =>
    unfold ByteBuffer.size at h
    exact store_content (by omega)

theorem bufferGrow_zero (heap : Nat → UInt8) (b : ByteBuffer) : bufferGrow heap b 0 = b := by
  simp only [bufferGrow, freshBytes, List.range_zero, List.map_nil, List.append_nil]

theorem bufferGrow_bufferGrow (heap : Nat → UInt8) (b : ByteBuffer) (m n : Nat) :
    bufferGrow heap (bufferGrow heap b m) n = bufferGrow heap b (m + n) := by
  simp only [bufferGrow, List.length_append, length_freshBytes, freshBytes_add, List.append_assoc]

theorem Wrote.grow (h : Wrote b b' x) (heap : Nat → UInt8) (n : Nat) :
    Wrote (bufferGrow heap b n) (bufferGrow heap b' n) x := by
  refine ⟨?_, ?_, h.write, h.read⟩
  · exact Nat.le_trans h.room (List.length_append ▸ Nat.le_add_right _ _)
  · show b'.mem ++ freshBytes heap b'.mem.length n = (bufferGrow heap b n).content ++ x
      ++ (b.mem ++ freshBytes heap b.mem.length n).drop (b.write + x.length)
    rw [bufferGrow_content, h.length, h.mem, List.drop_append_of_le_length h.room,
      List.append_assoc _ (b.mem.drop _)]

theorem bufferWrites_wrote (xs : List Bytes) : ∀ {b : ByteBuffer},
    b.write + xs.flatten.length ≤ b.mem.length →
    ∃ b', xs.foldlM bufferWrite b = some b' ∧ Wrote b b' xs.flatten := by
  induction xs with
  | nil => exact fun {b} _ => ⟨b, rfl, .refl b⟩
  | cons x xs ih =>
    intro b h
    rw [List.flatten_cons, List.length_append] at h
    obtain ⟨b₁, h₁, hwrote₁⟩ := @bufferWrite_wrote b x (by omega)
    obtain ⟨b', hrest, hwrote⟩ := @ih b₁ (by rw [hwrote₁.write, hwrote₁.length]; omega)
    exact ⟨b', by rw [List.foldlM_cons, h₁]; exact hrest, hwrote₁.trans hwrote⟩

end QjsNet
