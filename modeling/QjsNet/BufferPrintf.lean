import QjsNet.ByteBuffer
import QjsNet.Utils

/- Formatted text in a buffer (`buffer_printf` in `buffer.c`), and the headers of a
   connection (`headers_tobuffer` in `headers.c`).

   `vsnprintf` needs room for the text and a terminating zero, and returns the length of
   the text, or -1 where that is no `int`. `buffer_vprintf` compares it with the room
   alone: a text that takes all of it has lost its last byte to the zero. The room is
   converted to an `int`, which changes it from 2147483648 on.

   `headers_tobuffer` lets the buffer grow by 1024 bytes until the line is accepted. What
   the library gives for a header (`lws_hdr_total_length`, `lws_token_to_string`,
   `lws_hdr_copy`) is a parameter. The buffer owns its memory.

   Correspondence (C ↔ Lean):
     `vsnprintf`         ↔ `printedLength`, `printInto`
     `buffer_vprintf`, `buffer_printf` ↔ `bufferPrintf`, `none` for a pointer in front of
                                         the buffer
     `headers_tobuffer`  ↔ `headersTobuffer` -/
namespace QjsNet

/-- `buffer_AVAIL` -/
def ByteBuffer.avail (b : ByteBuffer) : Nat := b.size - b.write

/-- The `int` that a size is converted to. -/
def intOfSize (size : Int) : Int := (BitVec.ofInt 32 size).toInt

/-- What `vsnprintf` returns. -/
def printedLength (text : Bytes) : Int := if text.length < 2147483648 then text.length else -1

/-- The memory with as much of the text as there is room for, and a terminating zero. -/
def printInto (b : ByteBuffer) (text : Bytes) : Bytes :=
  if b.avail = 0 then b.mem else overwrite b.mem b.write (text.take (b.avail - 1) ++ [0])

/-- The memory is written, and `write` is moved. -/
def moveWrite (b : ByteBuffer) (mem : Bytes) (n : Int) : Option ByteBuffer :=
  if h : 0 ≤ (b.write : Int) + n ∧ ((b.write : Int) + n).toNat ≤ mem.length then
    some ⟨mem, b.read, ((b.write : Int) + n).toNat, h.2⟩
  else none

/-- The buffer and what is returned. -/
def bufferPrintf (b : ByteBuffer) (text : Bytes) : Option (ByteBuffer × Int) :=
  let size : Int := b.avail
  let n := printedLength text
  let mem := printInto b text
  if size < n then (moveWrite b mem 0).map fun b' => (b', 0)
  else
    let n := if intOfSize size ≤ n then size else n
    (moveWrite b mem n).map fun b' => (b', intOfSize n)

/-- The whole text is appended and its length returned, or nothing is appended and 0 returned. -/
def PrintsExactly (b : ByteBuffer) (text : Bytes) : Prop :=
  ∃ b' n, bufferPrintf b text = some (b', n) ∧
    ((b'.content = b.content ++ text ∧ n = text.length) ∨ (b'.content = b.content ∧ n = 0))

variable {b b' : ByteBuffer} {text : Bytes} {heap : Nat → UInt8} {n : Int}

/-! ## Sizes -/

theorem intOfSize_eq (size : Int) : intOfSize size =
    if size % 4294967296 < 2147483648 then size % 4294967296 else size % 4294967296 - 4294967296 := by
  unfold intOfSize
  rw [BitVec.toInt_ofInt, Int.bmod_def]
  rfl

theorem intOfSize_le (size : Nat) : intOfSize size ≤ size := by
  rw [intOfSize_eq]
  split <;> omega

theorem intOfSize_small {size : Int} (hlow : 0 ≤ size) (hhigh : size < 2147483648) :
    intOfSize size = size := by
  rw [intOfSize_eq, if_pos (by omega)]
  omega

/-! ## What is printed -/

theorem avail_eq (b : ByteBuffer) : b.write + b.avail = b.mem.length := by
  have hle := b.write_le
  unfold ByteBuffer.avail ByteBuffer.size
  omega

theorem printInto_length (b : ByteBuffer) (text : Bytes) :
    (printInto b text).length = b.mem.length := by
  have havail := avail_eq b
  unfold printInto
  split
  · rfl
  · refine overwrite_length ?_
    rw [List.length_append, List.length_take, List.length_singleton]
    omega

theorem printInto_take (b : ByteBuffer) (text : Bytes) :
    (printInto b text).take b.write = b.content := by
  unfold printInto
  split
  · rfl
  · have hlength : (b.mem.take b.write).length = b.write := by
      rw [List.length_take, Nat.min_eq_left b.write_le]
    rw [overwrite, List.append_assoc, List.take_left' hlength]
    rfl

theorem printInto_text (h : text.length < b.avail) :
    (printInto b text).take (b.write + text.length) = b.content ++ text := by
  have hlength : (b.content ++ text).length = b.write + text.length := by
    rw [List.length_append, length_content]
  have hwhole : text.take (b.avail - 1) = text := List.take_of_length_le (by omega)
  rw [printInto, if_neg (by omega), hwhole, overwrite,
    ← ByteBuffer.content, ← List.append_assoc b.content, List.append_assoc, List.take_left' hlength]

theorem printInto_full (h : text.length = b.avail) (hne : text ≠ []) :
    (printInto b text).take (b.write + text.length) = b.content ++ (text.dropLast ++ [0]) := by
  have hpos := List.length_pos_of_ne_nil hne
  have hlength : (b.content ++ (text.dropLast ++ [0])).length = b.write + text.length := by
    rw [List.length_append, List.length_append, List.length_dropLast, length_content,
      List.length_singleton]
    omega
  rw [printInto, if_neg (by omega), ← h, ← List.dropLast_eq_take, overwrite, ← ByteBuffer.content,
    List.take_left' hlength]

theorem moveWrite_spec {mem : Bytes} {n : Nat} (h : b.write + n ≤ mem.length) :
    ∃ b', moveWrite b mem n = some b' ∧ b'.content = mem.take (b.write + n) ∧ b'.mem = mem ∧
      b'.write = b.write + n := by
  have hnat : ((b.write : Int) + n).toNat = b.write + n := by omega
  have hroom : 0 ≤ (b.write : Int) + n ∧ ((b.write : Int) + n).toNat ≤ mem.length := by
    rw [hnat]
    exact ⟨by omega, h⟩
  rw [moveWrite, dif_pos hroom]
  exact ⟨_, rfl, congrArg mem.take hnat, rfl, hnat⟩

theorem moveWrite_some {mem : Bytes} (h : moveWrite b mem n = some b') :
    b'.mem = mem ∧ (b'.write : Int) = b.write + n := by
  unfold moveWrite at h
  split at h
  · next hroom =>
    cases h
    exact ⟨rfl, Int.toNat_of_nonneg hroom.1⟩
  · cases h

/-- The cases of `buffer_printf` for a text whose length is an `int`. -/
theorem bufferPrintf_cases (h : text.length < 2147483648) :
    ∃ b', b'.mem = printInto b text ∧
      ((b.avail < text.length ∧ bufferPrintf b text = some (b', 0) ∧ b'.write = b.write) ∨
      (text.length < intOfSize b.avail ∧ bufferPrintf b text = some (b', (text.length : Int)) ∧
        b'.write = b.write + text.length) ∨
      (text.length ≤ b.avail ∧ intOfSize b.avail ≤ text.length ∧
        bufferPrintf b text = some (b', intOfSize b.avail) ∧ b'.write = b.write + b.avail)) := by
  have hlength : printedLength text = text.length := if_pos h
  have hmem := printInto_length b text
  have havail := avail_eq b
  have hint := intOfSize_le b.avail
  unfold bufferPrintf
  rw [hlength]
  by_cases hlt : (b.avail : Int) < text.length
  · obtain ⟨b', hmove, -, hb', hwrite⟩ := @moveWrite_spec b (printInto b text) 0 (by omega)
    refine ⟨b', hb', Or.inl ⟨by omega, ?_, hwrite⟩⟩
    rw [if_pos hlt]
    exact congrArg (Option.map _) hmove
  · by_cases hfull : intOfSize b.avail ≤ text.length
    · obtain ⟨b', hmove, -, hb', hwrite⟩ :=
        @moveWrite_spec b (printInto b text) b.avail (by omega)
      refine ⟨b', hb', Or.inr (Or.inr ⟨by omega, hfull, ?_, hwrite⟩)⟩
      rw [if_neg hlt]
      dsimp only
      rw [if_pos hfull, hmove]
      rfl
    · obtain ⟨b', hmove, -, hb', hwrite⟩ :=
        @moveWrite_spec b (printInto b text) text.length (by omega)
      refine ⟨b', hb', Or.inr (Or.inl ⟨by omega, ?_, hwrite⟩)⟩
      rw [if_neg hlt]
      dsimp only
      rw [if_neg hfull, hmove, intOfSize_small (by omega) (by omega)]
      rfl

theorem content_eq (b' : ByteBuffer) (hmem : b'.mem = printInto b text) {n : Nat}
    (hwrite : b'.write = b.write + n) : b'.content = (printInto b text).take (b.write + n) := by
  rw [ByteBuffer.content, hmem, hwrite]

theorem bufferPrintf_long (h : ¬ text.length < 2147483648)
    (hprint : bufferPrintf b text = some (b', n)) : n < 0 := by
  have hlength : printedLength text = -1 := if_neg h
  unfold bufferPrintf at hprint
  rw [hlength, if_neg (by omega)] at hprint
  obtain ⟨b₁, -, hn⟩ := Option.map_eq_some_iff.1 hprint
  cases hn
  split
  · next hneg => omega
  · decide

theorem printsExactly_full (h : text.length < 2147483648) (heq : text.length = b.avail)
    (hmem : b'.mem = printInto b text)
    (hprint : bufferPrintf b text = some (b', intOfSize b.avail))
    (hwrite : b'.write = b.write + b.avail) :
    PrintsExactly b text ↔ ∀ c ∈ text.getLast?, c = 0 := by
  have hsmall := @intOfSize_small b.avail (by omega) (by omega)
  rw [hsmall, ← heq] at hprint
  rw [← heq] at hwrite
  obtain rfl | ⟨front, c, rfl⟩ := List.eq_nil_or_concat' text
  · refine iff_of_true ⟨b', 0, hprint, Or.inr ⟨?_, rfl⟩⟩ fun c hc => nomatch hc
    rw [content_eq b' hmem hwrite]
    exact printInto_take b []
  · have hcontent : b'.content = b.content ++ (front ++ [0]) := by
      have hne : front ++ [c] ≠ [] := List.append_ne_nil_of_right_ne_nil _ (List.cons_ne_nil c [])
      rw [content_eq b' hmem hwrite, printInto_full heq hne, List.dropLast_concat]
    have hlast : (∀ d ∈ (front ++ [c]).getLast?, d = 0) ↔ c = 0 := by
      rw [List.getLast?_concat]
      exact ⟨fun hc => hc c rfl, fun hc d hd => (Option.some.inj hd).symm.trans hc⟩
    rw [hlast]
    refine ⟨?_, ?_⟩
    · rintro ⟨b₁, n, hprint', hexact⟩
      rw [hprint] at hprint'
      cases hprint'
      obtain ⟨hsame, -⟩ | ⟨-, hzero⟩ := hexact
      · rw [hcontent] at hsame
        have htail := List.append_cancel_left (List.append_cancel_left hsame)
        exact (List.cons.inj htail).1.symm
      · rw [List.length_append, List.length_singleton] at hzero
        omega
    · rintro rfl
      exact ⟨b', _, hprint, Or.inl ⟨hcontent, rfl⟩⟩

/-- `buffer_printf` is exact exactly for a text whose length is an `int`, for which there is no
room at all, or less than the room as an `int`, or as much as the room when its last byte is a
zero anyway. -/
theorem printsExactly_iff (b : ByteBuffer) (text : Bytes) :
    PrintsExactly b text ↔ text.length < 2147483648 ∧
      (b.avail < text.length ∨ text.length < intOfSize b.avail ∨
        (text.length = b.avail ∧ ∀ c ∈ text.getLast?, c = 0)) := by
  have hint := intOfSize_le b.avail
  by_cases h : text.length < 2147483648
  · obtain ⟨b', hmem, hcases⟩ := bufferPrintf_cases (b := b) h
    obtain ⟨hlt, hprint, hwrite⟩ | ⟨hlt, hprint, hwrite⟩ | ⟨hle, hfull, hprint, hwrite⟩ := hcases
    · refine iff_of_true ⟨b', 0, hprint, Or.inr ⟨?_, rfl⟩⟩ ⟨h, Or.inl hlt⟩
      rw [content_eq b' hmem (n := 0) hwrite]
      exact printInto_take b text
    · refine iff_of_true ⟨b', text.length, hprint, Or.inl ⟨?_, rfl⟩⟩ ⟨h, Or.inr (Or.inl hlt)⟩
      rw [content_eq b' hmem hwrite, printInto_text (by omega)]
    · by_cases heq : text.length = b.avail
      · rw [printsExactly_full h heq hmem hprint hwrite]
        refine ⟨fun hlast => ⟨h, Or.inr (Or.inr ⟨heq, hlast⟩)⟩, ?_⟩
        rintro ⟨-, hlt | hlt | ⟨-, hlast⟩⟩
        · omega
        · omega
        · exact hlast
      · have hlen : b'.content.length = b.content.length + b.avail := by
          rw [length_content, length_content, hwrite]
        refine iff_of_false ?_ (by omega)
        rintro ⟨b₁, n, hprint', hexact⟩
        rw [hprint] at hprint'
        cases hprint'
        obtain ⟨hcontent, -⟩ | ⟨hcontent, -⟩ := hexact
        · rw [hcontent, List.length_append] at hlen
          omega
        · rw [hcontent] at hlen
          omega
  · refine iff_of_false ?_ fun hcond => h hcond.1
    rintro ⟨b', n, hprint, hexact⟩
    have hneg := bufferPrintf_long h hprint
    omega

/-! ## The headers of a connection -/

/-- What the library gives for a header: its length, its name with the colon behind it, and its
value, both C strings. -/
structure HeaderToken where
  total : Int
  name : Option Bytes
  value : Bytes
  name_ok : ∀ n ∈ name, n ≠ [] ∧ (0 : UInt8) ∉ n
  value_ok : (0 : UInt8) ∉ value

/-- `name: value`, if the header is there and has a name; the colon of `:path` is part of it. -/
def HeaderToken.line (t : HeaderToken) : Option Bytes :=
  if 0 < t.total then
    t.name.map fun name => name.take (1 + byteChr name.tail 58) ++ ([58, 32] ++ (t.value ++ [10]))
  else none

/-- The loop that lets the buffer grow until the line is accepted. -/
def printLoop (heap : Nat → UInt8) (text : Bytes) : Nat → ByteBuffer → Option ByteBuffer
  | 0, _ => none
  | fuel + 1, b => (bufferPrintf b text).bind fun r =>
    if r.2 = 0 then printLoop heap text fuel (bufferGrow heap r.1 1024) else some r.1

/-- There is room after so many turns. -/
def printLine (heap : Nat → UInt8) (b : ByteBuffer) (text : Bytes) : Option ByteBuffer :=
  printLoop heap text (text.length + 2) b

/-- A turn of the loop, with the lines that are counted. -/
def tobufferTurn (heap : Nat → UInt8) (r : ByteBuffer × Nat) (t : HeaderToken) :
    Option (ByteBuffer × Nat) :=
  match t.line with
  | none => some r
  | some text => (printLine heap r.1 text).map fun b => (b, r.2 + 1)

def headersTobuffer (heap : Nat → UInt8) (b : ByteBuffer) (tokens : List HeaderToken) :
    Option (ByteBuffer × Nat) :=
  tokens.foldlM (tobufferTurn heap) (if b.size = 0 then bufferAlloc heap 1024 else b, 0)

/-- The lines that should be there afterwards. -/
def tokenLines (tokens : List HeaderToken) : List Bytes := tokens.filterMap HeaderToken.line

/-- The buffer is the old content, and a line for each header. -/
def TobufferExact (heap : Nat → UInt8) (b : ByteBuffer) (tokens : List HeaderToken) : Prop :=
  ∃ b' count, headersTobuffer heap b tokens = some (b', count) ∧
    b'.content = b.content ++ (tokenLines tokens).flatten

/-- The room when it has grown for `n` bytes. -/
def grownRoom (room n : Nat) : Nat :=
  if n ≤ room then room else room + (n - room + 1023) / 1024 * 1024

/-- The line is shorter than the room it finds, which is not more than an `int`. -/
def LineFits (room : Nat) (text : Bytes) : Prop :=
  text.length < 2147483648 ∧ (text.length : Int) < intOfSize (grownRoom room text.length)

/-- The same for all lines, each of which takes its length of the room. -/
def LinesFit : Nat → List Bytes → Prop
  | _, [] => True
  | room, text :: lines =>
    LineFits room text ∧ LinesFit (grownRoom room text.length - text.length) lines

instance (room : Nat) (text : Bytes) : Decidable (LineFits room text) :=
  inferInstanceAs (Decidable (_ ∧ _))

/-! ### A line -/

/-- A zero was put behind the first `k` bytes. -/
def ZeroBehind (k : Nat) (x : Bytes) : Prop := ∃ i, k ≤ i ∧ x[i]? = some 0

theorem ZeroBehind.mono {k k' : Nat} {x y : Bytes} (h : ZeroBehind k x) (hle : k' ≤ k)
    (hstart : x <+: y) : ZeroBehind k' y := by
  obtain ⟨i, hi, hzero⟩ := h
  obtain ⟨rest, rfl⟩ := hstart
  refine ⟨i, Nat.le_trans hle hi, ?_⟩
  rw [List.getElem?_append_left (List.getElem?_eq_some_iff.1 hzero).1, hzero]

/-- What is appended without a zero is something else. -/
theorem ZeroBehind.ne {x y : Bytes} (h : ZeroBehind b.content.length x) (hy : (0 : UInt8) ∉ y) :
    x ≠ b.content ++ y := by
  rintro rfl
  obtain ⟨i, hi, hzero⟩ := h
  rw [List.getElem?_append_right hi] at hzero
  exact hy (List.mem_of_getElem? hzero)

/-- What a line that does not fit leaves behind. -/
def Spoils (b b' : ByteBuffer) : Prop :=
  b.content <+: b'.content ∧ ZeroBehind b.content.length b'.content

theorem printInto_spoils (havail : b.avail ≠ 0) (hmem : b'.mem = printInto b text)
    (hwrite : b'.write = b.write + b.avail) : Spoils b b' := by
  have hall : b'.content = b.content ++ ((text.take (b.avail - 1) ++ [0]) ++
      b.mem.drop (b.write + (text.take (b.avail - 1) ++ [0]).length)) := by
    rw [content_eq b' hmem hwrite, avail_eq, ← printInto_length b text, List.take_length, printInto,
      if_neg havail, overwrite, List.append_assoc]
    rfl
  rw [Spoils, hall]
  refine ⟨List.prefix_append _ _, b.content.length + (text.take (b.avail - 1)).length,
    Nat.le_add_right _ _, ?_⟩
  rw [List.getElem?_append_right (Nat.le_add_right _ _), Nat.add_sub_cancel_left, List.append_assoc,
    List.getElem?_append_right (Nat.le_refl _), Nat.sub_self]
  rfl

theorem Spoils.mono {b'' : ByteBuffer} (h : Spoils b b') (hstart : b'.content <+: b''.content) :
    Spoils b b'' := ⟨h.1.trans hstart, h.2.mono (Nat.le_refl _) hstart⟩

theorem grow_avail (heap : Nat → UInt8) (b : ByteBuffer) (n : Nat) :
    (bufferGrow heap b n).avail = b.avail + n := by
  have hle := b.write_le
  simp only [ByteBuffer.avail, ByteBuffer.size, bufferGrow, List.length_append, length_freshBytes]
  omega

/-- The room that is reached is the same after a turn of the loop. -/
theorem grownRoom_grow {room n : Nat} (h : room < n) :
    grownRoom (room + 1024) n = grownRoom room n := by
  unfold grownRoom
  rw [if_neg (Nat.not_le.2 h)]
  split <;> omega

theorem lineFits_grow {room : Nat} (h : room < text.length) :
    LineFits (room + 1024) text ↔ LineFits room text := by
  rw [LineFits, LineFits, grownRoom_grow h]

/-- What the loop leaves behind. -/
structure PrintedLine (b b' : ByteBuffer) (text : Bytes) : Prop where
  fits : LineFits b.avail text →
    b'.content = b.content ++ text ∧ b'.avail = grownRoom b.avail text.length - text.length
  spoils : ¬ LineFits b.avail text → Spoils b b'

theorem PrintedLine.starts (h : PrintedLine b b' text) : b.content <+: b'.content := by
  by_cases hfits : LineFits b.avail text
  · rw [(h.fits hfits).1]
    exact List.prefix_append _ _
  · exact (h.spoils hfits).1

theorem avail_of_write (hmem : b'.mem.length = b.mem.length) {k : Nat}
    (hwrite : b'.write = b.write + k) : b'.avail = b.avail - k := by
  simp only [ByteBuffer.avail, ByteBuffer.size, hmem, hwrite]
  omega

/-- The loop ends, when the room it reaches is not 0 as an `int`. -/
theorem printLoop_spec (heap : Nat → UInt8) (h : text.length < 2147483648) (hne : text ≠ []) :
    ∀ (fuel : Nat) {b : ByteBuffer}, text.length - b.avail + 1 ≤ fuel →
      intOfSize (grownRoom b.avail text.length) ≠ 0 →
      ∃ b', printLoop heap text fuel b = some b' ∧ PrintedLine b b' text := by
  have hpos := List.length_pos_of_ne_nil hne
  intro fuel
  induction fuel with
  | zero =>
    intro b hfuel _
    omega
  | succ fuel ih =>
    intro b hfuel hint
    obtain ⟨b₁, hmem, hcases⟩ := @bufferPrintf_cases b text h
    have hlength : b₁.mem.length = b.mem.length := by rw [hmem, printInto_length]
    rw [printLoop]
    obtain ⟨hlt, hprint, hwrite⟩ | ⟨hlt, hprint, hwrite⟩ | ⟨hle, hfull, hprint, hwrite⟩ := hcases
    · have hcontent : (bufferGrow heap b₁ 1024).content = b.content := by
        rw [bufferGrow_content, content_eq b₁ hmem (n := 0) hwrite]
        exact printInto_take b text
      have havail : (bufferGrow heap b₁ 1024).avail = b.avail + 1024 := by
        rw [grow_avail, @avail_of_write b b₁ hlength 0 hwrite]
        rfl
      obtain ⟨b', hloop, hprinted⟩ := @ih (bufferGrow heap b₁ 1024) (by omega)
        (by rw [havail, grownRoom_grow hlt]; exact hint)
      refine ⟨b', ?_, ?_, ?_⟩
      · rw [hprint, Option.bind_some, if_pos rfl, hloop]
      · intro hfits
        have hdone := hprinted.fits (by rw [havail]; exact (lineFits_grow hlt).2 hfits)
        rwa [hcontent, havail, grownRoom_grow hlt] at hdone
      · intro hfits
        have hdone := hprinted.spoils (by rw [havail]; exact fun hf => hfits ((lineFits_grow hlt).1 hf))
        rwa [Spoils, hcontent] at hdone
    · have hroom : grownRoom b.avail text.length = b.avail := by
        have hle := intOfSize_le b.avail
        exact if_pos (by omega)
      refine ⟨b₁, ?_, ?_, ?_⟩
      · rw [hprint, Option.bind_some, if_neg]
        dsimp only
        omega
      · intro _
        rw [content_eq b₁ hmem hwrite, printInto_text (by have := intOfSize_le b.avail; omega), hroom]
        exact ⟨rfl, avail_of_write hlength hwrite⟩
      · intro hfits
        exact absurd ⟨h, by rw [hroom]; exact hlt⟩ hfits
    · have hroom : grownRoom b.avail text.length = b.avail := if_pos hle
      rw [hroom] at hint
      refine ⟨b₁, ?_, ?_, ?_⟩
      · rw [hprint, Option.bind_some, if_neg hint]
      · intro hfits
        have hlt := hfits.2
        rw [hroom] at hlt
        omega
      · intro _
        exact printInto_spoils (by omega) hmem hwrite

/-- Where the room is 0 as an `int`, all of it is taken before the line is printed again. -/
theorem printLine_spec (heap : Nat → UInt8) (b : ByteBuffer) (h : text.length < 2147483648)
    (hne : text ≠ []) : ∃ b', printLine heap b text = some b' ∧ PrintedLine b b' text := by
  have hpos := List.length_pos_of_ne_nil hne
  by_cases hint : intOfSize (grownRoom b.avail text.length) = 0
  · obtain ⟨b₁, hmem, hcases⟩ := @bufferPrintf_cases b text h
    have hlength : b₁.mem.length = b.mem.length := by rw [hmem, printInto_length]
    have hle : text.length ≤ b.avail := by
      by_contra hlt
      rw [intOfSize_eq, grownRoom, if_neg hlt] at hint
      split at hint <;> omega
    have hroom : grownRoom b.avail text.length = b.avail := if_pos hle
    rw [hroom] at hint
    obtain ⟨hlt, -, -⟩ | ⟨hlt, -, -⟩ | ⟨-, -, hprint, hwrite⟩ := hcases
    · omega
    · omega
    · have havail : (bufferGrow heap b₁ 1024).avail = 1024 := by
        rw [grow_avail, avail_of_write hlength hwrite]
        omega
      have hsmall : intOfSize (grownRoom (bufferGrow heap b₁ 1024).avail text.length) ≠ 0 := by
        rw [havail, intOfSize_eq, grownRoom]
        split <;> split <;> omega
      obtain ⟨b', hloop, hprinted⟩ := printLoop_spec heap h hne (text.length + 1) (by omega) hsmall
      refine ⟨b', ?_, ?_, ?_⟩
      · rw [printLine, printLoop, hprint, Option.bind_some, if_pos hint]
        exact hloop
      · intro hfits
        have hlt := hfits.2
        rw [hroom] at hlt
        omega
      · intro _
        have hspoils : Spoils b b₁ := printInto_spoils (by omega) hmem hwrite
        refine hspoils.mono ?_
        have hstart := hprinted.starts
        rwa [bufferGrow_content] at hstart
  · exact printLoop_spec heap h hne _ (by omega) hint

theorem printLine_long (h : ¬ text.length < 2147483648) (hzero : (0 : UInt8) ∉ text)
    (hprint : printLine heap b text = some b') : b'.content ≠ b.content ++ text := by
  have hlength : printedLength text = -1 := if_neg h
  rw [printLine, printLoop] at hprint
  obtain ⟨⟨b₁, n⟩, hturn, hrest⟩ := Option.bind_eq_some_iff.1 hprint
  have hneg := bufferPrintf_long h hturn
  rw [if_neg (by dsimp only; omega)] at hrest
  cases hrest
  unfold bufferPrintf at hturn
  rw [hlength, if_neg (by omega)] at hturn
  obtain ⟨b₂, hmove, heq⟩ := Option.map_eq_some_iff.1 hturn
  cases heq
  obtain ⟨hmem, hwrite⟩ := moveWrite_some hmove
  change b₁.content ≠ b.content ++ text
  split at hwrite
  · next hint =>
    have havail : b.avail ≠ 0 := by
      intro hnone
      rw [hnone] at hint
      exact absurd hint (by decide)
    exact (printInto_spoils havail hmem (by omega)).2.ne hzero
  · intro hcontent
    have hcount := congrArg List.length hcontent
    rw [List.length_append, length_content, length_content] at hcount
    omega

theorem printLine_exact_iff (heap : Nat → UInt8) (b : ByteBuffer) (hne : text ≠ [])
    (hzero : (0 : UInt8) ∉ text) :
    (∃ b', printLine heap b text = some b' ∧ b'.content = b.content ++ text) ↔
      LineFits b.avail text := by
  by_cases h : text.length < 2147483648
  · obtain ⟨b', hprint, hprinted⟩ := printLine_spec heap b h hne
    refine ⟨?_, fun hfits => ⟨b', hprint, (hprinted.fits hfits).1⟩⟩
    rintro ⟨b₁, hprint', hcontent⟩
    rw [hprint] at hprint'
    cases hprint'
    by_contra hfits
    exact (hprinted.spoils hfits).2.ne hzero hcontent
  · refine iff_of_false ?_ fun hfits => h hfits.1
    rintro ⟨b', hprint, hcontent⟩
    exact printLine_long h hzero hprint hcontent

/-! ### All lines -/

variable {lines : List Bytes}

/-- What a line is: not empty, and without zeros. -/
def Printable (text : Bytes) : Prop := text ≠ [] ∧ (0 : UInt8) ∉ text

/-- The lines one after the other. -/
def printLines (heap : Nat → UInt8) (b : ByteBuffer) (lines : List Bytes) : Option ByteBuffer :=
  lines.foldlM (printLine heap) b

/-- Lines that are not longer than an `int` leave the buffer with all of them, or with a zero behind
the old content. -/
theorem printLines_spec (heap : Nat → UInt8) (lines : List Bytes) : ∀ {b : ByteBuffer},
    (∀ text ∈ lines, Printable text ∧ text.length < 2147483648) →
    ∃ b', printLines heap b lines = some b' ∧ b.content <+: b'.content ∧
      (LinesFit b.avail lines → b'.content = b.content ++ lines.flatten) ∧
      (¬ LinesFit b.avail lines → ZeroBehind b.content.length b'.content) := by
  induction lines with
  | nil =>
    intro b _
    exact ⟨b, rfl, List.prefix_refl _, fun _ => (List.append_nil _).symm, fun h => absurd trivial h⟩
  | cons text lines ih =>
    intro b hlines
    obtain ⟨⟨⟨hne, hzero⟩, hlength⟩, hlines⟩ := List.forall_mem_cons.1 hlines
    obtain ⟨b₁, hprint, hprinted⟩ := printLine_spec heap b hlength hne
    obtain ⟨b', hrest, hstart, hfit, hspoil⟩ := @ih b₁ hlines
    refine ⟨b', ?_, hprinted.starts.trans hstart, ?_, ?_⟩
    · rw [printLines, List.foldlM_cons, hprint]
      exact hrest
    · rintro ⟨hfits, hrestFits⟩
      obtain ⟨hcontent, havail⟩ := hprinted.fits hfits
      rw [hfit (havail ▸ hrestFits), hcontent, List.flatten_cons, List.append_assoc]
    · intro hnot
      by_cases hfits : LineFits b.avail text
      · obtain ⟨hcontent, havail⟩ := hprinted.fits hfits
        have hrestNot : ¬ LinesFit b₁.avail lines := fun hrestFits => hnot ⟨hfits, havail ▸ hrestFits⟩
        refine (hspoil hrestNot).mono ?_ (List.prefix_refl _)
        rw [hcontent, List.length_append]
        exact Nat.le_add_right _ _
      · exact (hprinted.spoils hfits).2.mono (Nat.le_refl _) hstart

theorem printLines_prefixes_iff (heap : Nat → UInt8) (lines : List Bytes) : ∀ {b : ByteBuffer},
    (∀ text ∈ lines, Printable text) →
    ((∀ pre, pre <+: lines → ∃ b', printLines heap b pre = some b' ∧
        b'.content = b.content ++ pre.flatten) ↔ LinesFit b.avail lines) := by
  induction lines with
  | nil =>
    intro b _
    refine iff_of_true ?_ trivial
    intro pre hpre
    rw [List.prefix_nil.1 hpre]
    exact ⟨b, rfl, (List.append_nil _).symm⟩
  | cons text lines ih =>
    intro b hlines
    obtain ⟨⟨hne, hzero⟩, hrestLines⟩ := List.forall_mem_cons.1 hlines
    have hcons : ∀ b₁, printLine heap b text = some b₁ → ∀ pre,
        printLines heap b (text :: pre) = printLines heap b₁ pre := by
      intro b₁ hprint pre
      rw [printLines, List.foldlM_cons, hprint]
      rfl
    refine ⟨?_, ?_⟩
    · intro h
      obtain ⟨b', hrun, hcontent⟩ := h [text] (List.cons_prefix_cons.2 ⟨rfl, List.nil_prefix⟩)
      have hfits : LineFits b.avail text := by
        rw [← printLine_exact_iff heap b hne hzero]
        refine ⟨b', ?_, by rw [hcontent, List.flatten_singleton]⟩
        obtain ⟨b₁, hprint, hdone⟩ := Option.bind_eq_some_iff.1 hrun
        cases hdone
        exact hprint
      obtain ⟨b₁, hprint, hprinted⟩ := printLine_spec heap b hfits.1 hne
      obtain ⟨hcontent₁, havail⟩ := hprinted.fits hfits
      refine ⟨hfits, havail ▸ (ih hrestLines).1 fun pre hpre => ?_⟩
      obtain ⟨b', hrun, hcontent⟩ := h (text :: pre) (List.cons_prefix_cons.2 ⟨rfl, hpre⟩)
      rw [hcons b₁ hprint] at hrun
      refine ⟨b', hrun, ?_⟩
      rw [hcontent, hcontent₁, List.flatten_cons, List.append_assoc]
    · rintro ⟨hfits, hrest⟩ pre hpre
      obtain ⟨b₁, hprint, hprinted⟩ := printLine_spec heap b hfits.1 hne
      obtain ⟨hcontent₁, havail⟩ := hprinted.fits hfits
      cases pre with
      | nil => exact ⟨b, rfl, (List.append_nil _).symm⟩
      | cons text' pre =>
        obtain ⟨heq, hrestPre⟩ := List.cons_prefix_cons.1 hpre
        subst heq
        obtain ⟨b', hrun, hcontent⟩ := (ih hrestLines).2 (havail ▸ hrest) pre hrestPre
        refine ⟨b', by rw [hcons b₁ hprint, hrun], ?_⟩
        rw [hcontent, hcontent₁, List.flatten_cons, List.append_assoc]

/-! ### The tokens -/

theorem HeaderToken.printable {t : HeaderToken} {text : Bytes} (h : t.line = some text) :
    Printable text := by
  unfold HeaderToken.line at h
  split at h
  · obtain ⟨name, hname, rfl⟩ := Option.map_eq_some_iff.1 h
    refine ⟨List.append_ne_nil_of_right_ne_nil _ (List.cons_ne_nil _ _), ?_⟩
    intro hmem
    obtain hmem | hmem := List.mem_append.1 hmem
    · exact (t.name_ok name hname).2 (List.mem_of_mem_take hmem)
    · obtain hmem | hmem := List.mem_append.1 hmem
      · exact absurd hmem (by decide)
      · obtain hmem | hmem := List.mem_append.1 hmem
        · exact t.value_ok hmem
        · exact absurd hmem (by decide)
  · cases h

theorem tokenLines_printable (tokens : List HeaderToken) :
    ∀ text ∈ tokenLines tokens, Printable text := by
  intro text htext
  obtain ⟨t, -, hline⟩ := List.mem_filterMap.1 htext
  exact HeaderToken.printable hline

theorem foldlM_tobufferTurn (heap : Nat → UInt8) (tokens : List HeaderToken) : ∀ (b : ByteBuffer)
    (count : Nat), tokens.foldlM (tobufferTurn heap) (b, count) =
      (printLines heap b (tokenLines tokens)).map fun b' => (b', count + (tokenLines tokens).length) := by
  induction tokens with
  | nil => exact fun b count => rfl
  | cons t tokens ih =>
    intro b count
    cases hline : t.line with
    | none =>
      have hlines : tokenLines (t :: tokens) = tokenLines tokens := List.filterMap_cons_none hline
      have hturn : tobufferTurn heap (b, count) t = some (b, count) := by
        rw [tobufferTurn, hline]
      rw [List.foldlM_cons, hturn, hlines]
      exact ih b count
    | some text =>
      have hlines : tokenLines (t :: tokens) = text :: tokenLines tokens :=
        List.filterMap_cons_some hline
      have hturn : tobufferTurn heap (b, count) t =
          (printLine heap b text).map fun b => (b, count + 1) := by
        rw [tobufferTurn, hline]
      rw [List.foldlM_cons, hturn, hlines, printLines, List.foldlM_cons]
      cases printLine heap b text with
      | none => rfl
      | some b₁ =>
        refine (ih b₁ (count + 1)).trans ?_
        rw [List.length_cons, Nat.add_right_comm]
        rfl

/-- The room at the beginning. -/
def firstRoom (b : ByteBuffer) : Nat := if b.size = 0 then 1024 else b.avail

theorem headersTobuffer_eq (heap : Nat → UInt8) (b : ByteBuffer) :
    ∃ b₁, b₁.content = b.content ∧ b₁.avail = firstRoom b ∧ ∀ tokens,
      headersTobuffer heap b tokens = (printLines heap b₁ (tokenLines tokens)).map fun b' =>
        (b', (tokenLines tokens).length) := by
  unfold headersTobuffer firstRoom
  split
  · next hsize =>
    refine ⟨bufferAlloc heap 1024, ?_, ?_, ?_⟩
    · rw [bufferAlloc_content, ByteBuffer.content, List.length_eq_zero_iff.1 hsize, List.take_nil]
    · simp only [ByteBuffer.avail, ByteBuffer.size, bufferAlloc, length_freshBytes]
    · intro tokens
      rw [foldlM_tobufferTurn]
      simp only [Nat.zero_add]
  · refine ⟨b, rfl, rfl, ?_⟩
    intro tokens
    rw [foldlM_tobufferTurn]
    simp only [Nat.zero_add]

/-- Lines that are not longer than an `int` are all there exactly when each one fits. -/
theorem tobufferExact_iff (heap : Nat → UInt8) (b : ByteBuffer) {tokens : List HeaderToken}
    (h : ∀ text ∈ tokenLines tokens, text.length < 2147483648) :
    TobufferExact heap b tokens ↔ LinesFit (firstRoom b) (tokenLines tokens) := by
  obtain ⟨b₁, hcontent₁, havail, heq⟩ := headersTobuffer_eq heap b
  replace heq := heq tokens
  have hprintable := tokenLines_printable tokens
  obtain ⟨b', hrun, -, hfit, hspoil⟩ := @printLines_spec heap (tokenLines tokens) b₁
    fun text htext => ⟨hprintable text htext, h text htext⟩
  rw [hcontent₁, havail] at hfit hspoil
  rw [hrun] at heq
  refine ⟨?_, fun hfits => ⟨b', _, heq, hfit hfits⟩⟩
  rintro ⟨b₂, count, htobuffer, hexact⟩
  rw [heq] at htobuffer
  cases htobuffer
  by_contra hfits
  have hzero : (0 : UInt8) ∉ (tokenLines tokens).flatten := by
    rw [List.mem_flatten]
    rintro ⟨text, htext, hmem⟩
    exact (hprintable text htext).2 hmem
  exact (hspoil hfits).ne hzero hexact

/-- The lines are there after each of the headers exactly when each one fits. -/
theorem tobufferExact_prefixes_iff (heap : Nat → UInt8) (b : ByteBuffer)
    (tokens : List HeaderToken) :
    (∀ pre, pre <+: tokens → TobufferExact heap b pre) ↔
      LinesFit (firstRoom b) (tokenLines tokens) := by
  obtain ⟨b₁, hcontent, havail, heq⟩ := headersTobuffer_eq heap b
  rw [← havail, ← printLines_prefixes_iff heap (tokenLines tokens) (tokenLines_printable tokens)]
  have hexact : ∀ pre, TobufferExact heap b pre ↔ ∃ b', printLines heap b₁ (tokenLines pre) = some b' ∧
      b'.content = b₁.content ++ (tokenLines pre).flatten := by
    intro pre
    rw [TobufferExact, heq pre, hcontent]
    refine ⟨?_, ?_⟩
    · rintro ⟨b', count, hrun, hdone⟩
      obtain ⟨b₂, hlines, hpair⟩ := Option.map_eq_some_iff.1 hrun
      cases hpair
      exact ⟨b', hlines, hdone⟩
    · rintro ⟨b', hrun, hdone⟩
      exact ⟨b', _, by rw [hrun]; rfl, hdone⟩
  refine ⟨fun h lines hlines => ?_, fun h pre hpre => (hexact pre).2 (h _ (hpre.filterMap _))⟩
  obtain ⟨rest, happend⟩ := hlines
  obtain ⟨pre, rest', rfl, rfl, -⟩ := List.filterMap_eq_append_iff.1 happend.symm
  exact (hexact pre).1 (h pre (List.prefix_append _ _))

/-- A text is appended whole or not at all exactly when it is longer than the room, or shorter, or
as long with a zero at its end; and the headers leave a line each exactly when each line is shorter
than the room it finds. Lengths and room are an `int`. -/
theorem headers_tobuffer_iff (heap : Nat → UInt8) (b : ByteBuffer) (text : Bytes)
    (tokens : List HeaderToken) :
    (PrintsExactly b text ↔ text.length < 2147483648 ∧
      (b.avail < text.length ∨ text.length < intOfSize b.avail ∨
        (text.length = b.avail ∧ ∀ c ∈ text.getLast?, c = 0))) ∧
    ((∀ pre, pre <+: tokens → TobufferExact heap b pre) ↔
      LinesFit (firstRoom b) (tokenLines tokens)) ∧
    ((∀ line ∈ tokenLines tokens, line.length < 2147483648) →
      (TobufferExact heap b tokens ↔ LinesFit (firstRoom b) (tokenLines tokens))) :=
  ⟨printsExactly_iff b text, tobufferExact_prefixes_iff heap b tokens, tobufferExact_iff heap b⟩

/-- `Host` with so many bytes. -/
def hostToken (n : Nat) : HeaderToken where
  total := n
  name := some [104, 111, 115, 116, 58]
  value := List.replicate n 120
  name_ok := by decide
  value_ok := fun h => absurd (List.eq_of_mem_replicate h) (by decide)

theorem headers_tobuffer_host :
    TobufferExact (fun _ => 7) (bufferAlloc (fun _ => 7) 9) [hostToken 1] :=
  ((headers_tobuffer_iff (fun _ => 7) (bufferAlloc (fun _ => 7) 9) [] [hostToken 1]).2.2
    (by decide)).2 ⟨by decide, trivial⟩

/-- The line end becomes a zero. -/
theorem full_room_loses_byte :
    (¬ ∀ b text, PrintsExactly b text) ∧ ¬ ∀ heap b tokens, TobufferExact heap b tokens := by
  refine ⟨fun h => ?_, fun h => ?_⟩
  · have hexact := h (bufferAlloc (fun _ => 7) 1) [10]
    rw [printsExactly_iff] at hexact
    revert hexact
    decide
  · have hline : (hostToken 1017).line = some ([104, 111, 115, 116] ++ ([58, 32] ++
        (List.replicate 1017 120 ++ [10]))) := rfl
    have hlines : tokenLines [hostToken 1017] = [[104, 111, 115, 116] ++ ([58, 32] ++
        (List.replicate 1017 120 ++ [10]))] := by
      rw [tokenLines, List.filterMap_cons_some hline, List.filterMap_nil]
    have hlength : ([104, 111, 115, 116] ++ ([58, 32] ++
        (List.replicate 1017 120 ++ [10])) : Bytes).length = 1024 := by
      simp only [List.length_append, List.length_replicate, List.length_cons, List.length_nil]
    have hexact := h (fun _ => 7) (bufferAlloc (fun _ => 7) 0) [hostToken 1017]
    rw [tobufferExact_iff _ _ (by rw [hlines, List.forall_mem_singleton, hlength]; omega), hlines] at hexact
    have hfits := hexact.1.2
    rw [hlength] at hfits
    exact absurd hfits (by decide)

end QjsNet
