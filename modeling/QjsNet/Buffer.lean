import QjsNet.JSValue

/- Byte blocks (`buffer.c`): memory that a queue item owns.

   A `ByteBlock` is two pointers. `none` is the null block `{0, 0}`; `some` is an
   allocated block with its contents, which may be empty: `block_copy` of no bytes
   still allocates, `block_slice` of an empty range does not.

   Correspondence (C ↔ Lean):
     `block_SIZE`, `block_BEGIN` ↔ `ByteBlock.size`, `Option.isSome`
     `block_copy`, `block_slice`, `block_append` ↔ `blockCopy`, `blockSlice`, `blockAppend`
     `block_toarraybuffer`, `block_tostring` ↔ `BlockFn.toarraybuffer`, `BlockFn.tostring` -/
namespace QjsNet

abbrev ByteBlock := Option Bytes

namespace ByteBlock

/-- The bytes between `start` and `end`. -/
def data (b : ByteBlock) : Bytes := b.getD []

def size (b : ByteBlock) : Nat := b.data.length

@[simp] theorem data_none : data none = [] := rfl

@[simp] theorem data_some (d : Bytes) : data (some d) = d := rfl

@[simp] theorem size_none : size none = 0 := rfl

@[simp] theorem size_some (d : Bytes) : size (some d) = d.length := rfl

theorem size_eq_zero {b : ByteBlock} : b.size = 0 ↔ b.data = [] := List.length_eq_zero_iff

end ByteBlock

def blockCopy (bytes : Bytes) : ByteBlock := some bytes

def blockSlice (b : ByteBlock) (start stop : Nat) : ByteBlock :=
  let piece := (b.data.take stop).drop start
  if piece.isEmpty then none else some piece

def blockAppend (b : ByteBlock) (bytes : Bytes) : ByteBlock := some (b.data ++ bytes)

@[simp] theorem data_blockCopy (d : Bytes) : (blockCopy d).data = d := rfl

@[simp] theorem data_blockAppend (b : ByteBlock) (d : Bytes) :
    (blockAppend b d).data = b.data ++ d := rfl

@[simp] theorem data_blockSlice (b : ByteBlock) (start stop : Nat) :
    (blockSlice b start stop).data = (b.data.take stop).drop start := by
  simp only [blockSlice]
  split
  · next h => rw [List.isEmpty_iff.1 h, ByteBlock.data_none]
  · rfl

/-- The conversions a generator may apply to a block. Each takes the memory out of the
block, which is the null block afterwards. -/
inductive BlockFn where
  | toarraybuffer
  | tostring
  deriving DecidableEq, Repr

def BlockFn.apply : BlockFn → Bytes → JSValue
  | .toarraybuffer, bytes => .arrayBuffer bytes
  | .tostring, bytes => .string bytes

@[simp] theorem jsInputChars_apply (f : BlockFn) (bytes : Bytes) :
    jsInputChars (f.apply bytes) = bytes := by
  cases f <;> rfl

end QjsNet
