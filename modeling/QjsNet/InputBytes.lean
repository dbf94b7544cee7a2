import QjsNet.GeneratorRun
import QjsNet.WebSocket

/- The bytes a call takes from its arguments (`js_input_chars` and its callers).

   For a typed array `js_input_buffer` finds two things: the memory of the whole array
   buffer, and in `range` where the view lies in it. `js_offset_length` writes the
   optional offset and length arguments into the same `range`, measured against the
   whole memory. Every caller passes on the memory and its size and leaves `range` out.

   The conversions of an argument to an integer are of a number: one with a fraction is
   the integer it truncates to. An arithmetic overflow leaves a range that nothing is
   known about (`none`).

   Correspondence (C ↔ Lean):
     `js_offset_length`                        ↔ `jsOffsetLength`
     `js_input_buffer`, `js_input_chars`       ↔ `jsInputBuffer`, `jsInputCharsBuffer`
     `js_input_args`, `js_buffer_fromargs`     ↔ `jsInputArgs`, `jsBufferFromargs`
     `GENERATOR_WRITE`, `GENERATOR_ENQUEUE`    ↔ `methodWrite`, `methodEnqueue`
     `minnet_generator_push`                   ↔ `minnetGeneratorPush`
     `minnet_ws_send`                          ↔ `minnetWsSendArgs`
     `HASH_UPDATE` and `hash_update`           ↔ `methodUpdate` -/
namespace QjsNet

structure OffsetLength where
  offset : Int
  length : Int
  deriving DecidableEq, Repr

/-- `JS_ToInt64` of a number. -/
def jsToInt64 (n : Int) : Int := n.bmod 18446744073709551616

/-- The value of a signed 64-bit computation, unless it overflows. -/
def int64 (n : Int) : Option Int :=
  if -9223372036854775808 ≤ n ∧ n < 9223372036854775808 then some n else none

/-- `argv[i]` when it is there and a number. -/
def numberArg (argv : List JSValue) (i : Nat) : Option Int :=
  match argv[i]? with
  | some (.int n) => some (jsToInt64 n)
  | _ => none

/-- `if(size) off = ((off % size) + size) % size;` -/
def wrapOffset (size off : Int) : Option Int :=
  if size ≠ 0 then (int64 (off.tmod size + size)).map (·.tmod size) else some off

/-- The length, of the `rest` bytes behind the offset. -/
def clampLength (len rest : Int) : Int := if 0 ≤ len then min len rest else rest

/-- `js_offset_length`: how many arguments it took, and the range. -/
def jsOffsetLength (size : Int) (argv : List JSValue) : Nat × Option OffsetLength :=
  let ret := if (numberArg argv 1).isSome then 2 else if (numberArg argv 0).isSome then 1 else 0
  let range := do
    let off ← wrapOffset size ((numberArg argv 0).getD 0)
    let rest ← int64 (size - off)
    some ⟨off, clampLength ((numberArg argv 1).getD size) rest⟩
  (ret, range)

/-! ## The conversions of an argument -/

/-- `data` is the memory that is pointed to, `none` the null pointer. -/
structure JSBuffer where
  data : Option Bytes
  value : JSValue
  range : Option OffsetLength
  deriving DecidableEq, Repr

/-- The `size` bytes at `data`. -/
def JSBuffer.contents (buf : JSBuffer) : Bytes := buf.data.getD []

def JSBuffer.size (buf : JSBuffer) : Nat := buf.contents.length

def jsInputBuffer : JSValue → JSBuffer
  | .typedArray buffer offset length => ⟨some buffer, .arrayBuffer buffer, some ⟨offset, length⟩⟩
  | .arrayBuffer data => ⟨some data, .arrayBuffer data, some ⟨0, -1⟩⟩
  -- the value is the exception that was thrown
  | _ => ⟨none, .undefined, some ⟨0, -1⟩⟩

def jsInputCharsBuffer : JSValue → JSBuffer
  | .string chars => ⟨some chars, .string chars, some ⟨0, 9223372036854775807⟩⟩
  | value => jsInputBuffer value

/-- `js_input_args`, of `argv[0]` and the arguments behind it. -/
def jsInputArgs (value : JSValue) (argv : List JSValue) : JSBuffer :=
  let input := jsInputCharsBuffer value
  if argv = [] then input else { input with range := (jsOffsetLength input.size argv).2 }

/-- `js_buffer_fromargs`, with the number of arguments it took. -/
def jsBufferFromargs (value : JSValue) (argv : List JSValue) : Nat × JSBuffer :=
  let buf := jsInputCharsBuffer value
  if buf.size = 0 then (0, buf)
  else if argv = [] then (1, buf)
  else
    let (ret, range) := jsOffsetLength buf.size argv
    (1 + ret, { buf with range })

/-! ## The calls -/

/-- The byte strings a call reads of its arguments, and what comes of it. -/
structure Taken (α : Type) where
  used : List Bytes
  outcome : α

def methodWrite (gen : Generator) (value callback : JSValue) : Taken (Option (Generator × Nat)) :=
  let buf := jsInputCharsBuffer value
  ⟨[buf.contents], generatorWrite gen buf.contents callback⟩

def methodEnqueue (gen : Generator) (value : JSValue) : Taken (Option (Generator × Nat)) :=
  ⟨[(jsInputCharsBuffer value).contents], generatorEnqueue gen value⟩

/-- The bytes of a value that is passed on as it is. -/
def ownBytes : JSValue → Bytes
  | .typedArray buffer offset length => (buffer.drop offset).take length
  | value => jsInputChars value

/-- `push()`: a read that waits gets the value itself, otherwise its bytes are queued. -/
def minnetGeneratorPush (gen : Generator) (value : JSValue) :
    Taken (Option (Generator × JSValue)) :=
  ⟨[if gen.iterator.reads.isEmpty then (jsInputCharsBuffer value).contents else ownBytes value],
    generatorPush gen value⟩

/-- `send()` of an open socket. `toInt32` is the conversion of the protocol argument. -/
def minnetWsSendArgs (toInt32 : JSValue → Int) (ws : WebSocket) (value : JSValue)
    (argv : List JSValue) : Taken (WebSocket × JSValue) :=
  let (i, jsbuf) := jsBufferFromargs value argv
  ⟨[jsbuf.contents], minnetWsSend ws jsbuf.value (((value :: argv)[i]?).map toInt32)⟩

/-- A hash, with the bytes its digest is to be taken of. -/
structure Hash where
  finalized : Bool
  hashed : Bytes
  deriving DecidableEq, Repr

/-- `update()`. `failed` is the answer of the library. -/
def methodUpdate (h : Hash) (value : JSValue) (argv : List JSValue) (failed : Bool) :
    Taken (Hash × Except String JSValue) :=
  if h.finalized then ⟨[], h, .error "Hash already finalized"⟩
  else
    let buf := jsInputArgs value argv
    match buf.data with
    | none => ⟨[], h, .error "argument 1 must be String, ArrayBuffer, DataView or TypedArray"⟩
    | some data =>
      if failed then ⟨[data], h, .error "Hash update failed"⟩
      else ⟨[data], { h with hashed := h.hashed ++ data }, .ok (.int buf.size)⟩

/-! ## The range -/

/-- The range lies inside `size` bytes. -/
def OffsetLength.InRange (r : OffsetLength) (size : Int) : Prop :=
  0 ≤ r.offset ∧ r.offset ≤ size ∧ 0 ≤ r.length ∧ r.length ≤ size - r.offset

/-- The offset argument, 0 when there is none. -/
def offsetArg (argv : List JSValue) : Int := (numberArg argv 0).getD 0

theorem int64_of_range {n : Int} (hlo : -9223372036854775808 ≤ n)
    (hhi : n < 9223372036854775808) : int64 n = some n := if_pos ⟨hlo, hhi⟩

theorem int64_overflow {n : Int} (h : 9223372036854775808 ≤ n) : int64 n = none :=
  if_neg (by omega)

/-- Truncating twice around an addition is the remainder that is never negative. -/
theorem tmod_add_tmod {size : Int} (hpos : 0 < size) (off : Int) :
    (off.tmod size + size).tmod size = off % size := by
  have hlow : -size < off.tmod size := Int.lt_tmod_of_pos off hpos
  have hquot : off.tmod size + size * off.tdiv size = off := by
    rw [Int.add_comm]
    exact Int.mul_tdiv_add_tmod off size
  calc (off.tmod size + size).tmod size
      = (off.tmod size + size) % size := Int.tmod_eq_emod_of_nonneg (by omega)
    _ = off.tmod size % size := Int.add_emod_right ..
    _ = (off.tmod size + size * off.tdiv size) % size := (Int.add_mul_emod_self_left ..).symm
    _ = off % size := by rw [hquot]

theorem wrapOffset_pos {size off : Int} (hpos : 0 < size)
    (hfits : off.tmod size + size < 9223372036854775808) :
    wrapOffset size off = some (off % size) := by
  have hlow : -size < off.tmod size := Int.lt_tmod_of_pos off hpos
  rw [wrapOffset, if_pos (by omega), int64_of_range (by omega) hfits, Option.map_some,
    tmod_add_tmod hpos]

theorem wrapOffset_overflow {size off : Int} (hpos : 0 < size)
    (hover : 9223372036854775808 ≤ off.tmod size + size) : wrapOffset size off = none := by
  rw [wrapOffset, if_pos (by omega), int64_overflow hover, Option.map_none]

theorem clampLength_range {rest : Int} (hrest : 0 ≤ rest) (len : Int) :
    0 ≤ clampLength len rest ∧ clampLength len rest ≤ rest := by
  unfold clampLength
  split <;> omega

variable {size : Int} {argv : List JSValue}

theorem jsOffsetLength_range : (jsOffsetLength size argv).2 =
    (wrapOffset size (offsetArg argv)).bind fun off => (int64 (size - off)).map fun rest =>
      ⟨off, clampLength ((numberArg argv 1).getD size) rest⟩ := by
  unfold jsOffsetLength offsetArg
  dsimp only
  cases wrapOffset size ((numberArg argv 0).getD 0) with
  | none => rfl
  | some off => cases h : int64 (size - off) <;> simp [h]

theorem jsOffsetLength_pos (hpos : 0 < size) (hsize : size < 9223372036854775808)
    (hfits : (offsetArg argv).tmod size + size < 9223372036854775808) :
    (jsOffsetLength size argv).2 = some ⟨offsetArg argv % size,
      clampLength ((numberArg argv 1).getD size) (size - offsetArg argv % size)⟩ := by
  have hlow : 0 ≤ offsetArg argv % size := Int.emod_nonneg _ (by omega)
  have hhigh : offsetArg argv % size < size := Int.emod_lt_of_pos _ hpos
  rw [jsOffsetLength_range, wrapOffset_pos hpos hfits, Option.bind_some,
    int64_of_range (by omega) (by omega), Option.map_some]

/-- Without data the offset stays as it was given. -/
theorem jsOffsetLength_zero {r : OffsetLength} (h : (jsOffsetLength 0 argv).2 = some r) :
    r.offset = offsetArg argv := by
  rw [jsOffsetLength_range, wrapOffset, if_neg (by simp), Option.bind_some,
    Option.map_eq_some_iff] at h
  obtain ⟨rest, -, rfl⟩ := h
  rfl

/-- **The range is inside the data** when there is data and the offset can be wrapped without an
overflow; of no data, only at offset 0. -/
theorem offset_length_range_iff (hnonneg : 0 ≤ size) (hsize : size < 9223372036854775808)
    (argv : List JSValue) :
    (∃ r : OffsetLength, (jsOffsetLength size argv).2 = some r ∧ r.InRange size) ↔
      (size = 0 ∧ offsetArg argv = 0) ∨
        (0 < size ∧ (offsetArg argv).tmod size + size < 9223372036854775808) := by
  rcases Int.lt_or_eq_of_le hnonneg with hpos | rfl
  · by_cases hfits : (offsetArg argv).tmod size + size < 9223372036854775808
    · have hlow : 0 ≤ offsetArg argv % size := Int.emod_nonneg _ (by omega)
      have hhigh : offsetArg argv % size < size := Int.emod_lt_of_pos _ hpos
      obtain ⟨hlen, hle⟩ := @clampLength_range (size - offsetArg argv % size) (by omega)
        ((numberArg argv 1).getD size)
      exact iff_of_true ⟨_, jsOffsetLength_pos hpos hsize hfits, hlow, hhigh.le, hlen, hle⟩
        (Or.inr ⟨hpos, hfits⟩)
    · refine iff_of_false ?_ (by omega)
      rintro ⟨r, hr, -⟩
      rw [jsOffsetLength_range, wrapOffset_overflow hpos (by omega)] at hr
      cases hr
  · refine ⟨?_, ?_⟩
    · rintro ⟨r, hr, hlow, hhigh, -⟩
      have hoff : r.offset = offsetArg argv := jsOffsetLength_zero hr
      omega
    · rintro (⟨-, hoff⟩ | ⟨hlt, -⟩)
      · obtain ⟨hlen, hle⟩ := clampLength_range (Int.le_refl 0) ((numberArg argv 1).getD 0)
        refine ⟨⟨0, clampLength ((numberArg argv 1).getD 0) 0⟩, ?_, Int.le_refl 0, Int.le_refl 0,
          hlen, hle⟩
        rw [jsOffsetLength_range, hoff]
        rfl
      · omega

/-- Three bytes from the end of ten, and at most five. -/
theorem offset_length_range_end : ∃ r : OffsetLength,
    (jsOffsetLength 10 [.int (-3), .int 5]).2 = some r ∧ r.InRange 10 :=
  (offset_length_range_iff (by decide) (by decide) [.int (-3), .int 5]).2 (by decide)

/-- The fifth byte of nothing. -/
theorem offset_length_empty :
    ¬ ∃ r : OffsetLength, (jsOffsetLength 0 [.int 5]).2 = some r ∧ r.InRange 0 := by
  rintro ⟨r, hr, -, hhigh, -⟩
  have hoff : r = ⟨5, -5⟩ := by
    have h : (jsOffsetLength 0 [.int 5]).2 = some ⟨5, -5⟩ := by decide
    exact Option.some.inj (hr.symm.trans h)
  rw [hoff] at hhigh
  exact absurd hhigh (by decide)

/-! ## Views -/

/-- A typed array: `length` bytes at `offset` of an array buffer. -/
structure View where
  buffer : Bytes
  offset : Nat
  length : Nat
  within : offset + length ≤ buffer.length

def View.value (v : View) : JSValue := .typedArray v.buffer v.offset v.length

def View.bytes (v : View) : Bytes := (v.buffer.drop v.offset).take v.length

/-- The bytes an offset and a length select: an offset wraps round, so that a negative one counts
from the end, and a negative length is the rest. -/
def subRange (data : Bytes) (off : Int) (len : Option Int) : Bytes :=
  let rest := data.drop (off % data.length).toNat
  match len with
  | none => rest
  | some len => if len < 0 then rest else rest.take len.toNat

/-- What the arguments behind a view select of it. -/
def View.select (v : View) (argv : List JSValue) : Bytes :=
  subRange v.bytes (offsetArg argv) (numberArg argv 1)

/-- The calls that take bytes. -/
inductive ViewCall where
  | write (callback : JSValue)
  | push
  | enqueue
  | send (argv : List JSValue)
  | update (argv : List JSValue) (failed : Bool)

/-- The objects they are made on. -/
structure Host where
  gen : Generator
  ws : WebSocket
  hash : Hash

/-- The byte strings a call reads. -/
def ViewCall.used (toInt32 : JSValue → Int) (s : Host) (value : JSValue) : ViewCall → List Bytes
  | .write callback => (methodWrite s.gen value callback).used
  | .push => (minnetGeneratorPush s.gen value).used
  | .enqueue => (methodEnqueue s.gen value).used
  | .send argv => (minnetWsSendArgs toInt32 s.ws value argv).used
  | .update argv failed => (methodUpdate s.hash value argv failed).used

/-- The bytes a call is to read of a view. -/
def ViewCall.meant (v : View) : ViewCall → Bytes
  | .write _ | .push | .enqueue => v.bytes
  | .send argv | .update argv _ => v.select argv

/-- A call reads no other bytes than those. -/
def ReadsView (toInt32 : JSValue → Int) (s : Host) (v : View) (c : ViewCall) : Prop :=
  ∀ b ∈ c.used toInt32 s v.value, b = c.meant v

/-- The call does with the view what it does with an array buffer of the bytes `b`. `push()` gives
the view itself to a read that waits. -/
def ViewCall.GoesBy (toInt32 : JSValue → Int) (s : Host) (v : View) (b : Bytes) : ViewCall → Prop
  | .write callback =>
    (methodWrite s.gen v.value callback).outcome
      = (methodWrite s.gen (.arrayBuffer b) callback).outcome
  | .push =>
    match s.gen.iterator.reads with
    | [] => (minnetGeneratorPush s.gen v.value).outcome
        = (minnetGeneratorPush s.gen (.arrayBuffer b)).outcome
    | rd :: _ => (minnetGeneratorPush s.gen v.value).outcome.map (·.1.ctx)
        = some (jsCall (jsAsyncCreate s.gen.ctx).1 (.resolve rd.capability)
            [.iteratorResult v.value false])
  | .enqueue =>
    (methodEnqueue s.gen v.value).outcome = (methodEnqueue s.gen (.arrayBuffer b)).outcome
  | .send argv => ∃ protocol, (minnetWsSendArgs toInt32 s.ws v.value argv).outcome
      = minnetWsSend s.ws (.arrayBuffer b) protocol
  | .update argv failed => (methodUpdate s.hash v.value argv failed).outcome
      = (methodUpdate s.hash (.arrayBuffer b) [] failed).outcome

/-- The view is the whole array buffer. -/
def View.Whole (v : View) : Prop := v.length = v.buffer.length

/-- An offset and a length that leave nothing of `size` bytes out. -/
def SelectsAll (size : Nat) (argv : List JSValue) : Prop :=
  size = 0 ∨ ((size : Int) ∣ offsetArg argv ∧ ∀ len : Int, numberArg argv 1 = some len →
    len < 0 ∨ (size : Int) ≤ len)

/-- `push()` has a read to give the view itself, or `update()` fails before it reads anything; or
there is nothing in the array buffer but what is selected. -/
def ViewCall.Unranged (s : Host) (v : View) : ViewCall → Prop
  | .write _ | .enqueue => v.Whole
  | .push => s.gen.iterator.reads ≠ [] ∨ v.Whole
  | .send argv => v.Whole ∧ SelectsAll v.length argv
  | .update argv _ => s.hash.finalized = true ∨ (v.Whole ∧ SelectsAll v.length argv)

variable {v : View}

theorem View.bytes_length (v : View) : v.bytes.length = v.length := by
  have h := v.within
  rw [View.bytes, List.length_take, List.length_drop]
  omega

theorem whole_iff : v.buffer = v.bytes ↔ v.Whole := by
  refine ⟨?_, ?_⟩
  · intro h
    have hlen := congrArg List.length h
    rw [v.bytes_length] at hlen
    exact hlen.symm
  · intro h
    have hzero : v.offset = 0 := by
      have hwithin := v.within
      rw [View.Whole] at h
      omega
    rw [View.bytes, hzero, List.drop_zero, h, List.take_length]

theorem subRange_length_le (data : Bytes) (off : Int) (len : Option Int) :
    (subRange data off len).length ≤ data.length := by
  unfold subRange
  dsimp only
  split
  · rw [List.length_drop]
    omega
  · split <;> simp only [List.length_take, List.length_drop] <;> omega

/-- The whole of the data is selected exactly by what leaves nothing out. -/
theorem subRange_eq_self (data : Bytes) (argv : List JSValue) :
    data = subRange data (offsetArg argv) (numberArg argv 1) ↔ SelectsAll data.length argv := by
  by_cases hne : data = []
  · subst hne
    refine iff_of_true ?_ (Or.inl rfl)
    exact (List.length_eq_zero_iff.1 (Nat.le_zero.1 (subRange_length_le [] _ _))).symm
  have hpos : 0 < data.length := List.length_pos_of_ne_nil hne
  have hlow : 0 ≤ offsetArg argv % (data.length : Int) := Int.emod_nonneg _ (by omega)
  refine ⟨?_, ?_⟩
  · intro h
    have hlen := congrArg List.length h
    refine Or.inr ⟨?_, ?_⟩
    · apply Int.dvd_of_emod_eq_zero
      simp only [subRange] at hlen
      split at hlen
      · rw [List.length_drop] at hlen
        omega
      · split at hlen <;> simp only [List.length_take, List.length_drop] at hlen <;> omega
    · intro len hsome
      by_contra hcut
      rw [hsome] at hlen
      simp only [subRange] at hlen
      rw [if_neg (by omega), List.length_take, List.length_drop] at hlen
      omega
  · rintro (hzero | ⟨hdvd, hall⟩)
    · omega
    have hoff : offsetArg argv % (data.length : Int) = 0 := Int.emod_eq_zero_of_dvd hdvd
    simp only [subRange, hoff, Int.toNat_zero, List.drop_zero]
    split
    · rfl
    · rename_i len hsome
      split
      · rfl
      · have hge := hall len hsome
        rw [List.take_of_length_le (by omega)]

theorem select_eq_buffer (argv : List JSValue) :
    v.buffer = v.select argv ↔ v.Whole ∧ SelectsAll v.length argv := by
  refine ⟨?_, ?_⟩
  · intro h
    have hle : (v.select argv).length ≤ v.bytes.length := subRange_length_le ..
    have hwhole : v.Whole := by
      have hwithin := v.within
      rw [← h, v.bytes_length] at hle
      rw [View.Whole]
      omega
    refine ⟨hwhole, ?_⟩
    rw [← v.bytes_length]
    apply (subRange_eq_self v.bytes argv).1
    rw [← View.select, ← h, whole_iff.2 hwhole]
  · rintro ⟨hwhole, hall⟩
    rw [← v.bytes_length] at hall
    rw [View.select, ← (subRange_eq_self v.bytes argv).2 hall, ← whole_iff.2 hwhole]

theorem jsInputArgs_view (v : View) (argv : List JSValue) :
    (jsInputArgs v.value argv).data = some v.buffer := by
  unfold jsInputArgs
  dsimp only
  split <;> rfl

theorem jsBufferFromargs_view (v : View) (argv : List JSValue) :
    (jsBufferFromargs v.value argv).2.data = some v.buffer := by
  unfold jsBufferFromargs
  dsimp only
  split
  · rfl
  · split <;> rfl

theorem jsBufferFromargs_value (v : View) (argv : List JSValue) :
    (jsBufferFromargs v.value argv).2.value = .arrayBuffer v.buffer := by
  unfold jsBufferFromargs
  dsimp only
  split
  · rfl
  · split <;> rfl

theorem minnetWsSendArgs_used (toInt32 : JSValue → Int) (ws : WebSocket) (v : View)
    (argv : List JSValue) : (minnetWsSendArgs toInt32 ws v.value argv).used = [v.buffer] := by
  simp only [minnetWsSendArgs, JSBuffer.contents, jsBufferFromargs_view]
  rfl

theorem methodUpdate_used {h : Hash} (hopen : h.finalized = false) (v : View) (argv : List JSValue)
    (failed : Bool) : (methodUpdate h v.value argv failed).used = [v.buffer] := by
  simp only [methodUpdate, hopen, Bool.false_eq_true, if_false, jsInputArgs_view]
  split <;> rfl

/-- A call that reads the memory of the buffer reads what is meant if that is all of it. -/
theorem readsView_memory {toInt32 : JSValue → Int} {s : Host} {c : ViewCall}
    (h : c.used toInt32 s v.value = [v.buffer]) :
    ReadsView toInt32 s v c ↔ v.buffer = c.meant v := by
  rw [ReadsView, h]
  simp

theorem generatorYield_bytes {gen : Generator} (hreads : gen.iterator.reads = [])
    {value other : JSValue} (hbytes : jsInputChars value = jsInputChars other) :
    generatorYield gen value .undefined = generatorYield gen other .undefined := by
  rw [generatorYield, generatorYield, iteratorYield_nil hreads, iteratorYield_nil hreads]
  simp only [enqueueValue, hbytes, Bool.false_eq_true, if_false]

theorem generatorPush_bytes {gen : Generator} (hreads : gen.iterator.reads = []) {value other : JSValue}
    (hbytes : jsInputChars value = jsInputChars other) :
    generatorPush gen value = generatorPush gen other := by
  simp only [generatorPush]
  rw [generatorYield_bytes _ hbytes]
  exact hreads

theorem generatorPush_waiting {gen : Generator} {rd : AsyncRead} {reads : List AsyncRead}
    (hreads : gen.iterator.reads = rd :: reads) (value : JSValue) :
    (generatorPush gen value).map (·.1.ctx)
      = some (jsCall (jsAsyncCreate gen.ctx).1 (.resolve rd.capability)
          [.iteratorResult value false]) := by
  simp only [generatorPush, generatorYield]
  rw [iteratorYield_cons]
  · rfl
  · exact hreads

/-- What comes of a call is what the bytes it reads come to. -/
theorem used_goesBy {toInt32 : JSValue → Int} {s : Host} {c : ViewCall} {b : Bytes}
    (hb : b ∈ c.used toInt32 s v.value) : c.GoesBy toInt32 s v b := by
  cases c with
  | write callback =>
    obtain rfl : b = v.buffer := List.mem_singleton.1 hb
    rfl
  | enqueue =>
    obtain rfl : b = v.buffer := List.mem_singleton.1 hb
    rfl
  | push =>
    simp only [ViewCall.used, minnetGeneratorPush, List.mem_singleton] at hb
    simp only [ViewCall.GoesBy]
    split
    · rename_i hreads
      rw [hreads] at hb
      obtain rfl : b = v.buffer := hb
      exact generatorPush_bytes hreads rfl
    · rename_i rd reads hreads
      exact generatorPush_waiting hreads v.value
  | send argv =>
    simp only [ViewCall.used, minnetWsSendArgs_used, List.mem_singleton] at hb
    subst hb
    exact ⟨((v.value :: argv)[(jsBufferFromargs v.value argv).1]?).map toInt32, by
      rw [← jsBufferFromargs_value v argv]
      rfl⟩
  | update argv failed =>
    cases hfinal : s.hash.finalized with
    | true => simp [ViewCall.used, methodUpdate, hfinal] at hb
    | false =>
      simp only [ViewCall.used, methodUpdate_used hfinal, List.mem_singleton] at hb
      subst hb
      simp only [ViewCall.GoesBy, methodUpdate, hfinal, Bool.false_eq_true, if_false,
        jsInputArgs_view, JSBuffer.size, JSBuffer.contents]
      rfl

/-- **Views.** A call reads the bytes of a view, or those that its arguments select of it, when it
passes the view on itself, fails, or there is nothing else in the array buffer. What it reads is
what it goes by. -/
theorem reads_view_iff (toInt32 : JSValue → Int) (s : Host) (v : View) (c : ViewCall) :
    (ReadsView toInt32 s v c ↔ c.Unranged s v) ∧
      ∀ b ∈ c.used toInt32 s v.value, c.GoesBy toInt32 s v b := by
  refine ⟨?_, fun b hb => used_goesBy hb⟩
  cases c with
  | write callback => exact (readsView_memory rfl).trans whole_iff
  | enqueue => exact (readsView_memory rfl).trans whole_iff
  | push =>
    by_cases hreads : s.gen.iterator.reads = []
    · have hused : ViewCall.push.used toInt32 s v.value = [v.buffer] := by
        simp only [ViewCall.used, minnetGeneratorPush, hreads, List.isEmpty_nil, if_true]
        rfl
      rw [readsView_memory hused, ViewCall.meant, whole_iff, ViewCall.Unranged]
      simp [hreads]
    · refine iff_of_true ?_ (Or.inl hreads)
      simp [ReadsView, ViewCall.used, minnetGeneratorPush, hreads, ViewCall.meant, View.value,
        View.bytes, ownBytes]
  | send argv =>
    have hused : (ViewCall.send argv).used toInt32 s v.value = [v.buffer] :=
      minnetWsSendArgs_used toInt32 s.ws v argv
    exact (readsView_memory hused).trans (select_eq_buffer argv)
  | update argv failed =>
    by_cases hopen : s.hash.finalized = false
    · have hused : (ViewCall.update argv failed).used toInt32 s v.value = [v.buffer] :=
        methodUpdate_used hopen v argv failed
      rw [readsView_memory hused, ViewCall.meant, select_eq_buffer, ViewCall.Unranged]
      simp [hopen]
    · have hfinal : s.hash.finalized = true := by simpa using hopen
      refine iff_of_true ?_ (Or.inl hfinal)
      simp [ReadsView, ViewCall.used, methodUpdate, hfinal]

/-- The two bytes in the middle of a buffer are written: all four are taken. -/
theorem reads_whole_buffer : ¬ ReadsView (fun _ => 0)
    ⟨.fresh .toarraybuffer, .fresh .server .undefined .new, ⟨false, []⟩⟩
    ⟨[1, 2, 3, 4], 1, 2, by decide⟩ (.write .null) := by
  intro h
  exact absurd (h [1, 2, 3, 4] (List.mem_singleton.2 rfl)) (by decide)

end QjsNet
