import Mathlib.Data.List.DropRight
import Mathlib.Data.List.TakeWhile
import Mathlib.Data.Nat.Digits.Defs
import QjsNet.JSValue

/- Scanning bytes (`utils.c`) and the C string functions the library uses.

   A C string is the list of its bytes in front of the terminating zero. A scan
   returns how many bytes it skips, and looks at no byte after `limit`, which here is the
   length of the list.

   Correspondence (C ↔ Lean):
     `isspace`, `isdigit`, `tolower`      ↔ `isspace`, `isdigit`, `tolower`
     `strcasecmp(a, b) == 0`, `strncasecmp(a, b, n) == 0`, `strstr`
       ↔ `strcasecmp`, `strncasecmp`, `strstr`
     `strtoul`, `%u`                      ↔ `strtoul`, `formatUnsigned`
     `byte_chr`, `byte_chrs`              ↔ `byteChr`, `byteChrs`
     `scan_whitenskip`, `scan_eol`, `scan_nextline`
       ↔ `scanWhitenskip`, `scanEol`, `scanNextline`
     `scan_charsetnskip`, `scan_noncharsetnskip`, `scan_past`
       ↔ `scanCharsetnskip`, `scanNoncharsetnskip`, `scanPast` -/
namespace QjsNet

/-- What is said of the bytes of a string is decided byte by byte, and not by going through all
values of a byte, which Mathlib offers as well. -/
instance (priority := high) decidableForallMemBytes (s : Bytes) (p : UInt8 → Prop)
    [DecidablePred p] : Decidable (∀ c ∈ s, p c) := List.decidableBAll p s

/-- The same for a byte that may be missing. -/
instance (priority := high) decidableForallMemByte (o : Option UInt8) (p : UInt8 → Prop)
    [DecidablePred p] : Decidable (∀ c ∈ o, p c) := Option.decidableForallMem o

/-- Subtraction of a `size_t`, which wraps round. -/
def sizeSub (a b : Nat) : Nat := if b ≤ a then a - b else a + 18446744073709551616 - b

theorem sizeSub_of_le {a b : Nat} (h : b ≤ a) : sizeSub a b = a - b := if_pos h

/-- The C string that a string with zero bytes is taken for. -/
def cString (s : Bytes) : Bytes := s.takeWhile (· ≠ 0)

/-- In the C locale: space, tab, line feed, vertical tab, form feed, carriage return. -/
def isspace (c : UInt8) : Bool := c = 32 || (9 ≤ c && c ≤ 13)

def isNewline (c : UInt8) : Bool := c = 10

def isdigit (c : UInt8) : Bool := 48 ≤ c && c ≤ 57

def tolower (c : UInt8) : UInt8 := if 65 ≤ c && c ≤ 90 then c + 32 else c

/-- The strings are equal but for the case of their letters. -/
def strcasecmp (a b : Bytes) : Bool := a.map tolower = b.map tolower

/-- The same for the first `n` bytes, or up to the end of the strings. -/
def strncasecmp (a b : Bytes) (n : Nat) : Bool := strcasecmp (cString (a.take n)) (cString (b.take n))

/-- What is in front of the first `needle` and what is behind it. -/
def strstr (needle : Bytes) : Bytes → Option (Bytes × Bytes)
  | [] => if needle.isEmpty then some ([], []) else none
  | c :: s =>
    if needle.isPrefixOf (c :: s) then some ([], (c :: s).drop needle.length)
    else (strstr needle s).map fun (before, after) => (c :: before, after)

/-- The number a string of digits stands for. -/
def digitsValue (digits : Bytes) : Nat :=
  digits.foldl (fun n c => 10 * n + (c.toNat - 48)) 0

def ulongMax : Nat := 2 ^ 64 - 1

/-- An optional sign, and whether it is a minus. -/
def takeSign : Bytes → Bool × Bytes
  | 45 :: x => (true, x)
  | 43 :: x => (false, x)
  | x => (false, x)

/-- `strtoul(s, &t, 10)`: the number and the string at `t`, which is `s` when there is no
number. -/
def strtoul (s : Bytes) : Nat × Bytes :=
  let (minus, x) := takeSign (s.dropWhile isspace)
  let n := digitsValue (x.takeWhile isdigit)
  if (x.takeWhile isdigit).isEmpty then (0, s)
  else (if ulongMax < n then ulongMax else if minus then (2 ^ 64 - n) % 2 ^ 64 else n,
    x.dropWhile isdigit)

/-- `%u` -/
def formatUnsigned (n : Nat) : Bytes :=
  if n = 0 then [48] else (Nat.digits 10 n).reverse.map fun d => 48 + UInt8.ofNat d

def byteChr (x : Bytes) (c : UInt8) : Nat := (x.takeWhile (· ≠ c)).length

def byteChrs (x needle : Bytes) : Nat := (x.takeWhile (!needle.contains ·)).length

def scanWhitenskip (s : Bytes) : Nat := (s.takeWhile isspace).length

/-- Up to the first line feed, without the carriage returns in front of it. -/
def scanEol (s : Bytes) : Nat := ((s.take (byteChr s 10)).rdropWhile (· = 13)).length

/-- Past the first line feed. -/
def scanNextline (s : Bytes) : Nat :=
  if byteChr s 10 < s.length then byteChr s 10 + 1 else byteChr s 10

/-- The comparison goes on to the zero that ends `charset`, so a zero byte counts as one of
its members. -/
def inCharset (charset : Bytes) (c : UInt8) : Bool := c = 0 || charset.contains c

def scanCharsetnskip (s charset : Bytes) : Nat := (s.takeWhile (inCharset charset)).length

def scanNoncharsetnskip (s charset : Bytes) : Nat := (s.takeWhile (!inCharset charset ·)).length

def scanPast (s charset : Bytes) : Nat :=
  let i := scanNoncharsetnskip s charset
  if i < s.length then i + scanCharsetnskip (s.drop i) charset else i

/-! ## Strings but for the case of their letters -/

theorem tolower_eq {c d : UInt8} (hd : d < 97 ∨ 122 < d) (h : tolower c = d) : c = d := by
  unfold tolower at h
  split at h
  · next hupper =>
    simp only [Bool.and_eq_true, decide_eq_true_eq, UInt8.le_iff_toNat_le] at hupper
    have hsum := congrArg UInt8.toNat h
    rw [UInt8.toNat_add] at hsum
    simp only [UInt8.lt_iff_toNat_lt, UInt8.reduceToNat] at hd hsum hupper
    omega
  · exact h

/-- What is not a letter is in both strings or in neither. -/
theorem mem_of_strcasecmp {a b : Bytes} {d : UInt8} (hlower : tolower d = d)
    (hd : d < 97 ∨ 122 < d) (h : strcasecmp a b = true) (hmem : d ∈ a) : d ∈ b := by
  have heq : a.map tolower = b.map tolower := of_decide_eq_true h
  have hd' : d ∈ b.map tolower := by
    rw [← heq]
    exact List.mem_map.2 ⟨d, hmem, hlower⟩
  obtain ⟨c, hc, hcd⟩ := List.mem_map.1 hd'
  exact tolower_eq hd hcd ▸ hc

/-! ## Where a scan stops -/

theorem takeWhile_append_stop {p : UInt8 → Bool} {y : Bytes} (hy : ∀ c ∈ y.head?, p c = false)
    (x : Bytes) : (x ++ y).takeWhile p = x.takeWhile p := by
  rw [List.takeWhile_append]
  split
  · next h =>
    have hall : x.takeWhile p = x := List.takeWhile_prefix p |>.eq_of_length h
    cases y with
    | nil => rw [List.takeWhile_nil, List.append_nil, hall]
    | cons c y =>
      rw [List.takeWhile_cons_of_neg (by rw [hy c rfl]; exact Bool.false_ne_true), List.append_nil,
        hall]
  · rfl

theorem head_dropWhile {p : UInt8 → Bool} (x : Bytes) : ∀ c ∈ (x.dropWhile p).head?, p c = false := by
  intro c hc
  have hnot := List.head?_dropWhile_not p x
  rw [Option.mem_def.1 hc] at hnot
  exact hnot

theorem takeWhile_all {p : UInt8 → Bool} {x y : Bytes} (hx : ∀ c ∈ x, p c = true)
    (hy : ∀ c ∈ y.head?, p c = false) : (x ++ y).takeWhile p = x := by
  rw [takeWhile_append_stop hy, List.takeWhile_eq_self_iff.2 hx]

theorem cString_of_not_mem {s : Bytes} (h : (0 : UInt8) ∉ s) : cString s = s := by
  unfold cString
  rw [List.takeWhile_eq_self_iff]
  intro c hc
  simpa using fun heq : c = 0 => h (heq ▸ hc)

theorem byteChr_of_not_mem {x : Bytes} {c : UInt8} (h : c ∉ x) : byteChr x c = x.length := by
  unfold byteChr
  rw [List.takeWhile_eq_self_iff.2]
  intro d hd
  simpa using fun heq : d = c => h (heq ▸ hd)

theorem byteChr_append_cons {x : Bytes} {c : UInt8} (h : c ∉ x) (y : Bytes) :
    byteChr (x ++ c :: y) c = x.length := by
  have hx : ∀ d ∈ x, decide (d ≠ c) = true := by
    intro d hd
    simpa using fun heq : d = c => h (heq ▸ hd)
  unfold byteChr
  rw [List.takeWhile_append_of_pos hx, List.takeWhile_cons_of_neg (by simp), List.append_nil]

end QjsNet
