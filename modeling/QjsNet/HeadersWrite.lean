import QjsNet.HeadersObject

/- Emitting a block of headers (`headers_write`).

   Each turn of the loop takes a line, ends the name behind its colon with a zero byte, passes
   name and value to `lws_add_http_header_by_name`, and puts the byte back. `none` is a
   length that has wrapped around, or a read behind the memory.

   `add` stands for `lws_add_http_header_by_name`: it gets the headers passed before, the name and
   the value, and returns how many bytes it puts out, or `none` when it fails.

   Correspondence (C ↔ Lean):
     `headers_write`                  ↔ `headersWrite`
     a turn of its loop               ↔ `writeHeader` -/
namespace QjsNet

/-- The headers that were passed on, the memory of the buffer, and the number of bytes put out. -/
structure HeadersOut where
  calls : List (Bytes × Bytes)
  mem : Bytes
  length : Nat
  deriving DecidableEq, Repr

/-- What a turn passes on: the name with its colon, and the value. The first number is how many
bytes the line has, the second one is where the byte is that is overwritten. -/
def lineHeader (mem : Bytes) (p q : Nat) : Option (Nat × Nat × Bytes × Bytes) :=
  let next := scanNextline ((mem.take q).drop p)
  let namelen := byteChr (((mem.take q).drop p).take next) 58
  let m := namelen + 1 + ((mem.drop (p + (namelen + 1))).takeWhile (· = 32)).length
  if m ≤ next && p + m < mem.length then
    let cut := mem.set (p + (namelen + 1)) 0
    let eol := scanEol ((cut.drop (p + m)).take (next - m))
    some (next, p + (namelen + 1), cString (cut.drop p), (cut.drop (p + m)).take eol)
  else none

/-- The loop of `headers_write`. Each turn takes at least one byte. -/
def headersWriteLoop (add : List (Bytes × Bytes) → Bytes → Bytes → Option Nat) (q : Nat) :
    Nat → Nat → HeadersOut → Option HeadersOut
  | 0, _, out => some out
  | fuel + 1, p, out =>
    if q ≤ p then some out
    else do
      let (next, i, name, value) ← lineHeader out.mem p q
      let tmp ← out.mem[i]?
      let out' : HeadersOut := ⟨out.calls ++ [(name, value)], (out.mem.set i 0).set i tmp, out.length⟩
      match add out.calls name value with
      | none => some out'
      | some n => headersWriteLoop add q fuel (p + next) { out' with length := out.length + n }

def headersWrite (add : List (Bytes × Bytes) → Bytes → Bytes → Option Nat) (b : ByteBuffer) :
    Option HeadersOut :=
  headersWriteLoop add b.write (b.write - b.read) b.read ⟨[], b.mem, 0⟩

/-- What the entries of an object have to be: names without colon, values without a space in front,
and no line ends in either. -/
structure PlainEntry (e : Bytes × Bytes) : Prop where
  ne : e.1 ≠ []
  colon : (58 : UInt8) ∉ e.1
  name : OneLine e.1
  value : OneLine e.2
  head : ∀ c ∈ e.2.head?, c ≠ 32

variable {e : Bytes × Bytes} {itemdelim before rest : Bytes}

/-! ## One line -/

/-- Both ends of a line have one line feed, at their end, and carriage returns in front of it. -/
theorem lineEnd_cases (hitem : itemdelim = crlf ∨ itemdelim = lineFeed) :
    ∃ returns : Bytes, itemdelim = returns ++ [10] ∧ ∀ c ∈ returns, c = 13 := by
  rcases hitem with rfl | rfl
  · exact ⟨[13], rfl, by decide⟩
  · exact ⟨[], rfl, by decide⟩

theorem not_mem_line {free returns : Bytes} (hfree : OneLine free) (hreturns : ∀ c ∈ returns, c = 13) :
    (10 : UInt8) ∉ free ++ returns := by
  intro hmem
  rcases List.mem_append.1 hmem with hmem | hmem
  · exact absurd (hfree 10 hmem) (by decide)
  · exact absurd (hreturns 10 hmem) (by decide)

theorem scanNextline_line {free : Bytes} (hfree : OneLine free)
    (hitem : itemdelim = crlf ∨ itemdelim = lineFeed) (rest : Bytes) :
    scanNextline (free ++ (itemdelim ++ rest)) = free.length + itemdelim.length := by
  obtain ⟨returns, rfl, hreturns⟩ := lineEnd_cases hitem
  have hline : free ++ (returns ++ [10] ++ rest) = (free ++ returns) ++ 10 :: rest := by simp
  have hscan := byteChr_append_cons (not_mem_line hfree hreturns) rest
  rw [scanNextline, hline, hscan, if_pos (by simp)]
  simp only [List.length_append, List.length_singleton]
  omega

theorem scanEol_line {free : Bytes} (hfree : OneLine free)
    (hitem : itemdelim = crlf ∨ itemdelim = lineFeed) : scanEol (free ++ itemdelim) = free.length := by
  obtain ⟨returns, rfl, hreturns⟩ := lineEnd_cases hitem
  have hline : free ++ (returns ++ [10]) = (free ++ returns) ++ [10] := by simp
  have hscan := byteChr_append_cons (not_mem_line hfree hreturns) []
  have hdrop : (free ++ returns).rdropWhile (· = 13) = free := by
    have hreturn : ∀ c ∈ returns.reverse, decide (c = 13) = true := by
      intro c hc
      exact decide_eq_true (hreturns c (List.mem_reverse.1 hc))
    have hlast : ∀ c ∈ free.reverse.head?, decide (c = 13) = false := by
      intro c hc
      refine decide_eq_false fun heq => ?_
      exact absurd (hfree c (List.mem_reverse.1 (List.mem_of_head? hc))) (heq ▸ by decide)
    rw [List.rdropWhile, List.reverse_append, List.dropWhile_append_of_pos hreturn,
      dropWhile_eq_self.2 hlast, List.reverse_reverse]
  rw [scanEol, hline, hscan, List.take_left, hdrop]

theorem set_middle (xs ys : Bytes) (c d : UInt8) : (xs ++ c :: ys).set xs.length d = xs ++ d :: ys := by
  simp

theorem PlainEntry.text (he : PlainEntry e) : OneLine (e.1 ++ (keyDelim ++ e.2)) := by
  intro c hc
  rcases List.mem_append.1 hc with hc | hc
  · exact he.name c hc
  · rcases List.mem_append.1 hc with hc | hc
    · exact keyDelim_oneLine c hc
    · exact he.value c hc

theorem itemdelim_lineEnd (hitem : itemdelim = crlf ∨ itemdelim = lineFeed) :
    LineEnd itemdelim := by
  rcases hitem with rfl | rfl
  · exact lineEnd_crlf
  · exact lineEnd_lineFeed

theorem spaces_of_value (he : PlainEntry e) (hitem : itemdelim = crlf ∨ itemdelim = lineFeed)
    (more : Bytes) : (32 :: (e.2 ++ (itemdelim ++ more))).takeWhile (· = 32) = [32] := by
  have hvalue : e.2.takeWhile (· = 32) = [] := by
    cases hv : e.2 with
    | nil => rfl
    | cons c cs =>
      have hc := he.head c (by rw [hv]; rfl)
      exact List.takeWhile_cons_of_neg (by simpa using hc)
  have hstop := (itemdelim_lineEnd hitem).head (p := (· = 32)) (by decide) (by decide) more
  rw [List.takeWhile_cons_of_pos (by decide), takeWhile_append_stop hstop, hvalue]

theorem scanNextline_headerLine (he : PlainEntry e)
    (hitem : itemdelim = crlf ∨ itemdelim = lineFeed) (more : Bytes) :
    scanNextline (headerLine itemdelim e.1 e.2 ++ more)
      = (headerLine itemdelim e.1 e.2).length := by
  have hline : headerLine itemdelim e.1 e.2 = (e.1 ++ (keyDelim ++ e.2)) ++ itemdelim := by
    simp [headerLine]
  rw [hline, List.append_assoc _ itemdelim, scanNextline_line he.text hitem,
    @List.length_append _ (e.1 ++ (keyDelim ++ e.2))]

theorem cString_name (he : PlainEntry e) (rest : Bytes) :
    cString ((e.1 ++ [58]) ++ 0 :: rest) = e.1 ++ [58] := by
  have hne : ∀ c ∈ e.1 ++ [58], decide (c ≠ 0) = true := by
    intro c hc
    refine decide_eq_true fun heq => ?_
    rcases List.mem_append.1 hc with hc | hc
    · exact OneLine.ne_zero he.name (heq ▸ hc)
    · exact absurd (List.mem_singleton.1 (heq ▸ hc)) (by decide)
  exact takeWhile_all hne fun c hc => Option.some.inj hc ▸ rfl

theorem memory_split (e : Bytes × Bytes) (itemdelim before rest : Bytes) :
    before ++ (headerLine itemdelim e.1 e.2 ++ rest)
      = (before ++ (e.1 ++ [58])) ++ 32 :: (e.2 ++ (itemdelim ++ rest)) := by
  simp [headerLine, keyDelim]

theorem drop_middle (xs ys : Bytes) (c : UInt8) : (xs ++ c :: ys).drop (xs.length + 1) = ys := by
  rw [← List.drop_drop, List.drop_left]
  rfl

theorem lineHeader_line (he : PlainEntry e) (hitem : itemdelim = crlf ∨ itemdelim = lineFeed)
    (before more rest : Bytes) :
    lineHeader (before ++ (headerLine itemdelim e.1 e.2 ++ (more ++ rest))) before.length
        (before ++ (headerLine itemdelim e.1 e.2 ++ more)).length
      = some ((headerLine itemdelim e.1 e.2).length, before.length + (e.1.length + 1),
          e.1 ++ [58], e.2) := by
  have hsplit := memory_split e itemdelim before (more ++ rest)
  have hcolon : before.length + (e.1.length + 1) = (before ++ (e.1 ++ [58])).length := by simp
  -- the part of the buffer that is left, its first line, and the name in it
  have hpart : ((before ++ (headerLine itemdelim e.1 e.2 ++ (more ++ rest))).take
        (before ++ (headerLine itemdelim e.1 e.2 ++ more)).length).drop before.length
      = headerLine itemdelim e.1 e.2 ++ more := by
    rw [← List.append_assoc (headerLine ..) more, ← List.append_assoc before _ rest, List.take_left,
      List.drop_left]
  have hnext := scanNextline_headerLine he hitem more
  have hnamelen : byteChr (headerLine itemdelim e.1 e.2) 58 = e.1.length :=
    byteChr_append_cons he.colon (32 :: (e.2 ++ itemdelim))
  have hspaces : (before ++ (headerLine itemdelim e.1 e.2 ++ (more ++ rest))).drop
      (before.length + (e.1.length + 1)) = 32 :: (e.2 ++ (itemdelim ++ (more ++ rest))) := by
    rw [hsplit, hcolon, List.drop_left]
  -- the zero behind the colon, and what is found in front of it and behind it
  have hcut : (before ++ (headerLine itemdelim e.1 e.2 ++ (more ++ rest))).set
      (before.length + (e.1.length + 1)) 0
        = (before ++ (e.1 ++ [58])) ++ 0 :: (e.2 ++ (itemdelim ++ (more ++ rest))) := by
    rw [hsplit, hcolon, set_middle]
  have hname : cString (((before ++ (e.1 ++ [58]))
      ++ 0 :: (e.2 ++ (itemdelim ++ (more ++ rest)))).drop before.length) = e.1 ++ [58] := by
    rw [List.append_assoc, List.drop_left, cString_name he]
  have hbehind : ((before ++ (e.1 ++ [58])) ++ 0 :: (e.2 ++ (itemdelim ++ (more ++ rest)))).drop
      (before.length + (e.1.length + 1 + 1)) = e.2 ++ (itemdelim ++ (more ++ rest)) := by
    rw [← Nat.add_assoc, hcolon, drop_middle]
  have hvalue : (e.2 ++ (itemdelim ++ (more ++ rest))).take
      ((headerLine itemdelim e.1 e.2).length - (e.1.length + 1 + 1)) = e.2 ++ itemdelim := by
    have hrest : (headerLine itemdelim e.1 e.2).length - (e.1.length + 1 + 1)
        = (e.2 ++ itemdelim).length := by
      rw [headerLine_length, List.length_append]
      omega
    rw [hrest, ← List.append_assoc, List.take_left]
  have hroom : (e.1.length + 1 + 1 ≤ (headerLine itemdelim e.1 e.2).length &&
      before.length + (e.1.length + 1 + 1)
        < (before ++ (headerLine itemdelim e.1 e.2 ++ (more ++ rest))).length) = true := by
    have hend : 0 < itemdelim.length := List.length_pos_iff.2 (itemdelim_lineEnd hitem).ne
    simp only [Bool.and_eq_true, decide_eq_true_eq, List.length_append, headerLine_length]
    omega
  unfold lineHeader
  simp only [hpart, hnext, List.take_left, hnamelen, hspaces, spaces_of_value he hitem,
    List.length_singleton, hroom, if_true, hcut, hname, hbehind, hvalue, scanEol_line he.value hitem]

/-! ## All lines -/

theorem set_restore {mem : Bytes} {i : Nat} {tmp : UInt8} (h : mem[i]? = some tmp) (c : UInt8) :
    (mem.set i c).set i tmp = mem := by
  obtain ⟨hlt, rfl⟩ := List.getElem?_eq_some_iff.1 h
  rw [List.set_set, List.set_getElem_self hlt]

def blockOf (itemdelim : Bytes) (es : List (Bytes × Bytes)) : Bytes :=
  es.flatMap fun e => headerLine itemdelim e.1 e.2

theorem headersWriteLoop_block {add : List (Bytes × Bytes) → Bytes → Bytes → Option Nat}
    (hadd : ∀ calls name value, add calls name value ≠ none)
    (hitem : itemdelim = crlf ∨ itemdelim = lineFeed) (rest : Bytes) (es : List (Bytes × Bytes)) :
    ∀ (before : Bytes) (calls : List (Bytes × Bytes)) (length : Nat) {fuel : Nat},
    (∀ e ∈ es, PlainEntry e) → (blockOf itemdelim es).length ≤ fuel →
    ∃ length', headersWriteLoop add (before ++ blockOf itemdelim es).length fuel before.length
        ⟨calls, before ++ (blockOf itemdelim es ++ rest), length⟩
      = some ⟨calls ++ es.map (fun e => (e.1 ++ [58], e.2)), before ++ (blockOf itemdelim es ++ rest),
          length'⟩ := by
  induction es with
  | nil =>
    intro before calls length fuel _ _
    refine ⟨length, ?_⟩
    cases fuel with
    | zero => simp [headersWriteLoop, blockOf]
    | succ fuel => simp [headersWriteLoop, blockOf]
  | cons e es ih =>
    intro before calls length fuel hes hfuel
    obtain ⟨he, hes⟩ := List.forall_mem_cons.1 hes
    have hblock : blockOf itemdelim (e :: es)
        = headerLine itemdelim e.1 e.2 ++ blockOf itemdelim es := rfl
    rw [hblock, List.length_append, headerLine_length] at hfuel
    cases fuel with
    | zero => omega
    | succ fuel =>
      have hturn := lineHeader_line he hitem before (blockOf itemdelim es) rest
      have hin : before.length + (e.1.length + 1)
          < (before ++ (headerLine itemdelim e.1 e.2 ++ (blockOf itemdelim es ++ rest))).length := by
        simp only [List.length_append, headerLine_length]
        omega
      obtain ⟨n, hn⟩ := Option.ne_none_iff_exists'.1 (hadd calls (e.1 ++ [58]) e.2)
      have hassoc : before ++ (headerLine itemdelim e.1 e.2 ++ (blockOf itemdelim es ++ rest))
          = (before ++ headerLine itemdelim e.1 e.2) ++ (blockOf itemdelim es ++ rest) := by
        rw [List.append_assoc]
      obtain ⟨length', hrest⟩ := @ih (before ++ headerLine itemdelim e.1 e.2)
        (calls ++ [(e.1 ++ [58], e.2)]) (length + n) fuel hes (by omega)
      refine ⟨length', ?_⟩
      rw [hblock, List.append_assoc (headerLine itemdelim e.1 e.2), headersWriteLoop,
        if_neg (by simp only [List.length_append, headerLine_length]; omega), hturn]
      simp only [List.getElem?_eq_getElem hin, Option.bind_eq_bind, Option.bind_some, hn,
        set_restore (List.getElem?_eq_getElem hin)]
      rw [← List.length_append, hassoc, ← List.append_assoc before, hrest, List.map_cons,
        List.append_assoc calls]
      rfl

/-- **A block is passed on entry by entry.** The loop ends, each entry is passed once, in order, and
the memory is as it was. -/
theorem headers_emitted (heap : Nat → UInt8) (b : ByteBuffer) (hread : b.read = b.write)
    (obj : JSObject) (hobj : ∀ e ∈ obj.props, PlainEntry e)
    (hitem : itemdelim = crlf ∨ itemdelim = lineFeed)
    {add : List (Bytes × Bytes) → Bytes → Bytes → Option Nat}
    (hadd : ∀ calls name value, add calls name value ≠ none) :
    ∃ b' out, headersFromobj heap b obj itemdelim keyDelim = some b' ∧
      headersWrite add b' = some out ∧
      out.calls = obj.props.map (fun e => (e.1 ++ [58], e.2)) ∧ out.mem = b'.mem := by
  have hlength : itemdelim.length ≤ 2 := by
    rcases hitem with rfl | rfl
    · decide
    · decide
  obtain ⟨b', hfrom, hwrote⟩ := headersFromobj_wrote hlength heap b
    fun e he => OneLine.ne_zero (hobj e he).name
  have hmem : b'.mem = b.content ++ (blockOf itemdelim obj.props
      ++ (bufferGrow heap b obj.growth).mem.drop (b.write + (blockOf itemdelim obj.props).length)) := by
    rw [hwrote.mem, bufferGrow_content, List.append_assoc]
    rfl
  have hwrite : b'.write = (b.content ++ blockOf itemdelim obj.props).length := by
    rw [hwrote.write, List.length_append, length_content]
    rfl
  have hread' : b'.read = b.content.length := hwrote.read.trans (hread.trans (length_content b).symm)
  obtain ⟨length', hrun⟩ := headersWriteLoop_block hadd hitem
    ((bufferGrow heap b obj.growth).mem.drop (b.write + (blockOf itemdelim obj.props).length))
    obj.props b.content [] 0 hobj (Nat.le_refl _)
  refine ⟨b', ⟨_, b'.mem, length'⟩, hfrom, ?_, rfl, rfl⟩
  have hfuel : b'.write - b'.read = (blockOf itemdelim obj.props).length := by
    rw [hwrite, hread', List.length_append, Nat.add_sub_cancel_left]
  rw [headersWrite, hfuel, hread', hwrite, hmem]
  exact hrun

/-- `a: 1` and an empty `b`, with `"\n"`. -/
theorem two_headers_emitted :
    ∃ b' out, headersFromobj (fun _ => 0) .new ⟨[([97], [49]), ([98], [])], by decide⟩ lineFeed keyDelim
        = some b' ∧
      headersWrite (fun _ name value => some (name.length + value.length)) b' = some out ∧
      out.calls = [([97, 58], [49]), ([98, 58], [])] ∧ out.mem = b'.mem := by
  refine headers_emitted (fun _ => 0) .new rfl ⟨[([97], [49]), ([98], [])], by decide⟩ ?_ (Or.inr rfl) ?_
  · intro e he
    rcases List.mem_cons.1 he with rfl | he
    · exact ⟨by decide, by decide, by decide, by decide, by decide⟩
    · obtain rfl := List.mem_singleton.1 he
      exact ⟨by decide, by decide, by decide, by decide, by decide⟩
  · intro calls name value h
    cases h

end QjsNet
