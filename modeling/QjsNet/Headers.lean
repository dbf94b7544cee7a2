import QjsNet.ByteBuffer
import QjsNet.Utils

/- A block of header lines in a buffer (`headers.c`, and the methods of `Headers`).

   The functions scan the bytes between `start` and `write` line by line. A line ends at
   the first character of `itemdelim`, and all such characters that follow belong to it, as does a
   zero byte. `headers_findb` counts lines: what it returns is the number of the line, and
   `headers_unsetb` and `headers_appendb` add it to `start`, where they take the line they
   find there.

   `memcpy` of overlapping bytes copies them as `memmove` does. A length that is negative
   wraps around to a size that no memory has: the read behind it is out of bounds
   (`none` in `headersGetlen`).

   Correspondence (C ↔ Lean):
     `headers_length`, `headers_next`, `headers_namelen`, `headers_value`
       ↔ `headersLength`, `headersNext`, `headersNamelen`, `headersValue`
     `headers_findb`, `headers_find`, `headers_at`, `headers_getlen`
       ↔ `headersFindb`, `headersFind`, `headersAt`, `headersGetlen`
     `headers_unsetb`, `headers_set`, `headers_appendb`
       ↔ `headersUnsetb`, `headersSet`, `headersAppendb`
     `HEADERS_APPEND`               ↔ `headersAppend` -/
namespace QjsNet

/-- The letters, the digits, `_` and `-`. -/
def headerChars : Bytes :=
  (List.range 26).map (65 + UInt8.ofNat ·) ++ (List.range 26).map (97 + UInt8.ofNat ·)
    ++ (List.range 10).map (48 + UInt8.ofNat ·) ++ [95, 45]

/-- `"\r\n"` -/
def crlf : Bytes := [13, 10]

/-- `": "` -/
def keyDelim : Bytes := [58, 32]

def headersLength (x itemdelim : Bytes) : Nat := scanNoncharsetnskip x itemdelim

def headersNext (x itemdelim : Bytes) : Nat := scanPast x itemdelim

def headersNamelen (x : Bytes) : Nat := scanCharsetnskip x headerChars

def headersValue (x keydelim : Bytes) : Nat :=
  let pos := headersNamelen x
  let pos := pos + scanCharsetnskip (x.drop pos) keydelim
  pos + scanWhitenskip (x.drop pos)

/-- The loop of `headers_findb`, which has counted `ret` lines. Each turn takes at least one byte.
-/
def findLine (name itemdelim : Bytes) : Nat → Bytes → Nat → Option Nat
  | 0, _, _ => none
  | fuel + 1, x, ret =>
    if x.isEmpty then none
    else
      let c := headersNext x itemdelim
      if headersNamelen (x.take c) = name.length && strncasecmp x name name.length then some ret
      else findLine name itemdelim fuel (x.drop c) (ret + 1)

/-- The number of the first line with the name. -/
def headersFindb (b : ByteBuffer) (name itemdelim : Bytes) : Option Nat :=
  findLine name itemdelim b.content.length b.content 0

def headersFind (b : ByteBuffer) (name itemdelim : Bytes) : Option Nat :=
  headersFindb b (cString name) itemdelim

/-- The loop of `headers_at`: the bytes from the line on, and how long it is without its end. -/
def lineAt (itemdelim : Bytes) : Nat → Bytes → Nat → Option (Bytes × Nat)
  | 0, _, _ => none
  | fuel + 1, x, index =>
    if x.isEmpty then none
    else
      let c := headersNext x itemdelim
      match index with
      | 0 => some (x, headersLength (x.take c) itemdelim)
      | index + 1 => lineAt itemdelim fuel (x.drop c) index

def headersAt (b : ByteBuffer) (index : Nat) (itemdelim : Bytes) : Option (Bytes × Nat) :=
  lineAt itemdelim b.content.length b.content index

/-- The value in a line of length `l` that begins with `x`. -/
def valueIn (keydelim x : Bytes) (l : Nat) : Option (Option Bytes) :=
  let n := headersValue x keydelim
  if n ≤ l then some (some ((x.drop n).take (l - n))) else none

/-- The value of a header, or `some none` when there is none. -/
def headersGetlen (b : ByteBuffer) (name itemdelim keydelim : Bytes) : Option (Option Bytes) :=
  match headersFind b name itemdelim with
  | none => some none
  | some i => (headersAt b i itemdelim).bind fun line => valueIn keydelim line.1 line.2

def headersUnsetb (b : ByteBuffer) (name itemdelim : Bytes) : ByteBuffer × Option Nat :=
  match headersFindb b name itemdelim with
  | none => (b, none)
  | some i =>
    let c := headersNext (b.content.drop i) itemdelim
    let mem := overwrite b.mem i (b.content.drop (i + c))
    (b.endAt mem (b.write - c)
      (((Nat.sub_le _ _).trans b.write_le).trans (le_overwrite_length _ _ _)), some i)

/-- `none` is a failed assertion of `buffer_write`. -/
def headersSet (heap : Nat → UInt8) (b : ByteBuffer) (name value itemdelim : Bytes) :
    Option ByteBuffer :=
  let name := cString name
  let value := cString value
  let b := if b.size = 0 then b else (headersUnsetb b name itemdelim).1
  [name, keyDelim, value, itemdelim].foldlM bufferWrite
    (bufferGrow heap b (name.length + 2 + value.length + 2))

/-- The bytes from `y` on make room for two bytes and the value. -/
def moveRest (mem : Bytes) (y write : Nat) (value : Bytes) : Bytes :=
  if y < write && value.length ≠ 0 then
    overwrite mem (y + 2 + value.length) ((mem.take write).drop y)
  else mem

/-- `, ` and the value at `y`. -/
def insertValue (mem : Bytes) (y write : Nat) (value : Bytes) : Bytes :=
  overwrite (overwrite (moveRest mem y write value) y [44, 32]) (y + 2) value

theorem le_moveRest_length (mem : Bytes) (y write : Nat) (value : Bytes) :
    mem.length ≤ (moveRest mem y write value).length := by
  unfold moveRest
  split
  · exact le_overwrite_length _ _ _
  · exact Nat.le_refl _

theorem le_insertValue_length (mem : Bytes) (y write : Nat) (value : Bytes) :
    mem.length ≤ (insertValue mem y write value).length :=
  ((le_moveRest_length mem y write value).trans (le_overwrite_length _ y [44, 32])).trans
    (le_overwrite_length _ (y + 2) value)

def headersAppendb (heap : Nat → UInt8) (b : ByteBuffer) (name value itemdelim : Bytes) :
    ByteBuffer × Option Nat :=
  let grown := bufferGrow heap b (value.length + 2)
  match headersFindb grown name itemdelim with
  | none => (grown, none)
  | some i =>
    let y := i + headersNext (grown.content.drop i) itemdelim
    (grown.endAt (insertValue grown.mem y b.write value) (b.write + (value.length + 2))
      ((bufferGrow_room heap b _).trans (le_insertValue_length _ _ _ _)), some i)

/-- `HEADERS_APPEND` -/
def headersAppend (heap : Nat → UInt8) (b : ByteBuffer) (name value itemdelim : Bytes) :
    Option ByteBuffer :=
  match headersAppendb heap b name value itemdelim with
  | (b, some _) => some b
  | (b, none) => headersSet heap b name value itemdelim

end QjsNet
