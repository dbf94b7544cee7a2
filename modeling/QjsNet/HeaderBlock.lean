import QjsNet.Headers
import QjsNet.Lib.Lines
import QjsNet.Lib.Matching

/- Blocks of well-formed header lines, and what the scans find in them.

   A `Header` has a name and a value that fit in a line, and a block is the lines of
   several headers. Every function that counts lines then counts headers
   (`headersFindb_block`), and a lookup returns what is left of the value after the scan
   for its beginning (`headersGetlen_block`), whatever stands in the other lines. -/
namespace QjsNet

/-- Letters, digits, `_` and `-`, at least one. -/
def HeaderName (name : Bytes) : Prop := name ≠ [] ∧ ∀ c ∈ name, c ∈ headerChars

/-- No carriage return, line feed or zero. -/
def OneLine (value : Bytes) : Prop := ∀ c ∈ value, inCharset crlf c = false

/-- Not empty, and not beginning with a blank or a colon. -/
def PlainValue (value : Bytes) : Prop := value ≠ [] ∧ ∀ c ∈ value.head?, c ≠ 32 ∧ c ≠ 9 ∧ c ≠ 58

instance (name : Bytes) : Decidable (HeaderName name) := inferInstanceAs (Decidable (_ ∧ _))

instance (value : Bytes) : Decidable (OneLine value) :=
  inferInstanceAs (Decidable (∀ c ∈ value, inCharset crlf c = false))

instance (value : Bytes) : Decidable (PlainValue value) := inferInstanceAs (Decidable (_ ∧ _))

structure Header where
  name : Bytes
  value : Bytes
  name_ok : HeaderName name
  value_ok : OneLine value
  deriving DecidableEq, Repr

/-- A line of `headers_set` and `headers_fromobj`. -/
def headerLine (itemdelim name value : Bytes) : Bytes := name ++ (keyDelim ++ (value ++ itemdelim))

theorem headerLine_length (itemdelim name value : Bytes) :
    (headerLine itemdelim name value).length
      = name.length + (value.length + itemdelim.length + 2) := by
  simp only [headerLine, keyDelim, List.length_append, List.length_cons, List.length_nil]
  omega

def Header.line (itemdelim : Bytes) (h : Header) : Bytes := headerLine itemdelim h.name h.value

def block (itemdelim : Bytes) (hs : List Header) : Bytes := hs.flatMap (Header.line itemdelim)

/-- The end of a line: `"\n"`, `"\r\n"` and the like. -/
structure LineEnd (itemdelim : Bytes) : Prop where
  ne : itemdelim ≠ []
  eol : ∀ c ∈ itemdelim, c = 13 ∨ c = 10

/-- No line ends here. -/
def NoEnd (x : Bytes) : Prop := ∀ c ∈ x.head?, inCharset crlf c = false

variable {itemdelim name value rest : Bytes} {h : Header} {hs : List Header} {b : ByteBuffer}

theorem lineEnd_crlf : LineEnd crlf := ⟨by decide, by decide⟩

theorem LineEnd.inCharset (hend : LineEnd itemdelim) : ∀ c ∈ itemdelim, inCharset crlf c = true := by
  intro c hc
  rcases hend.eol c hc with rfl | rfl
  · decide
  · decide

theorem LineEnd.head {p : UInt8 → Bool} (hend : LineEnd itemdelim) (h13 : p 13 = false)
    (h10 : p 10 = false) (rest : Bytes) : ∀ c ∈ (itemdelim ++ rest).head?, p c = false := by
  intro c hc
  obtain ⟨d, ds, rfl⟩ := List.exists_cons_of_ne_nil hend.ne
  obtain rfl := Option.some.inj hc
  rcases hend.eol d List.mem_cons_self with rfl | rfl
  · exact h13
  · exact h10

theorem headerChars_noEnd : ∀ c ∈ headerChars, inCharset crlf c = false := by decide

theorem keyDelim_oneLine : OneLine keyDelim := by decide

theorem headerChars_ne_zero : ∀ c ∈ headerChars, c ≠ 0 := by decide

theorem HeaderName.ne_zero (hname : HeaderName name) : (0 : UInt8) ∉ name :=
  fun hc => headerChars_ne_zero 0 (hname.2 0 hc) rfl

theorem OneLine.ne_zero (hvalue : OneLine value) : (0 : UInt8) ∉ value :=
  fun hc => absurd (hvalue 0 hc) (by decide)

theorem block_head (itemdelim : Bytes) (hs : List Header) :
    ∀ c ∈ (block itemdelim hs).head?, c ∈ headerChars := by
  intro c hc
  cases hs with
  | nil => cases hc
  | cons h hs =>
    obtain ⟨d, ds, hname⟩ := List.exists_cons_of_ne_nil h.name_ok.1
    have hd : d ∈ h.name := by rw [hname]; exact List.mem_cons_self
    rw [block, List.flatMap_cons, Header.line, headerLine, hname] at hc
    obtain rfl := Option.some.inj hc
    exact h.name_ok.2 d hd

theorem block_noEnd (itemdelim : Bytes) (hs : List Header) : NoEnd (block itemdelim hs) :=
  fun c hc => headerChars_noEnd c (block_head itemdelim hs c hc)

/-- The buffer grows by what a line needs at most. -/
theorem writeLine_wrote (heap : Nat → UInt8) (b : ByteBuffer) (name value : Bytes)
    (hlength : itemdelim.length ≤ 2) :
    ∃ b', [name, keyDelim, value, itemdelim].foldlM bufferWrite
        (bufferGrow heap b (name.length + 2 + value.length + 2)) = some b' ∧
      Wrote (bufferGrow heap b (name.length + 2 + value.length + 2)) b'
        (headerLine itemdelim name value) := by
  have hline : headerLine itemdelim name value = [name, keyDelim, value, itemdelim].flatten := by
    simp [headerLine]
  have hroom := bufferGrow_room heap b (name.length + 2 + value.length + 2)
  have hkey : keyDelim.length = 2 := rfl
  rw [hline]
  refine bufferWrites_wrote _ ?_
  rw [← hline, headerLine]
  simp only [List.length_append]
  exact Nat.le_trans (Nat.add_le_add_left (by omega) _) hroom

/-! ## The lines of a block -/

theorem headersNamelen_append (hname : HeaderName name) (rest : Bytes) :
    headersNamelen (name ++ (keyDelim ++ rest)) = name.length := by
  have hchars : ∀ c ∈ name, inCharset headerChars c = true := by
    intro c hc
    simp [inCharset, hname.2 c hc]
  have hstop : ∀ c ∈ (keyDelim ++ rest).head?, inCharset headerChars c = false := by
    intro c hc
    exact Option.some.inj hc ▸ (by decide : inCharset headerChars 58 = false)
  rw [headersNamelen, scanCharsetnskip, takeWhile_all hchars hstop]

theorem headersNext_append {free ends : Bytes} (hfree : ∀ c ∈ free, inCharset crlf c = false)
    (hends : ∀ c ∈ ends, inCharset crlf c = true) (hne : ends ≠ []) (hrest : NoEnd rest) :
    headersNext (free ++ (ends ++ rest)) crlf = free.length + ends.length := by
  obtain ⟨e, es, rfl⟩ := List.exists_cons_of_ne_nil hne
  have hfree' : ∀ c ∈ free, (!inCharset crlf c) = true := by
    intro c hc
    rw [hfree c hc]
    rfl
  have hstop : ∀ c ∈ (e :: es ++ rest).head?, (!inCharset crlf c) = false := by
    intro c hc
    obtain rfl := Option.some.inj hc
    rw [hends e List.mem_cons_self]
    rfl
  have hscan : scanNoncharsetnskip (free ++ (e :: es ++ rest)) crlf = free.length := by
    rw [scanNoncharsetnskip, takeWhile_all hfree' hstop]
  have hlt : free.length < (free ++ (e :: es ++ rest)).length := by
    simp
  rw [headersNext, scanPast, hscan]
  simp only [hlt, if_true, List.drop_left]
  rw [scanCharsetnskip, takeWhile_all hends hrest]

/-- A line with its end: it does not begin with one, and the scan for the next line stops
behind it. -/
structure IsLine (line : Bytes) : Prop where
  ne : line ≠ []
  start : NoEnd line
  next : ∀ rest, NoEnd rest → headersNext (line ++ rest) crlf = line.length

theorem isLine_text {text : Bytes} (hne : text ≠ []) (htext : OneLine text)
    (hend : LineEnd itemdelim) : IsLine (text ++ itemdelim) where
  ne := List.append_ne_nil_of_left_ne_nil hne _
  start := by
    intro c hc
    rw [List.head?_append_of_ne_nil _ hne] at hc
    exact htext c (List.mem_of_mem_head? hc)
  next := by
    intro rest hrest
    rw [List.append_assoc, headersNext_append htext hend.inCharset hend.ne hrest,
      List.length_append]

theorem flatten_noEnd {ls : List Bytes} (hls : ∀ l ∈ ls, IsLine l) : NoEnd ls.flatten := by
  cases ls with
  | nil => exact fun c hc => nomatch hc
  | cons l ls =>
    obtain ⟨hl, -⟩ := List.forall_mem_cons.1 hls
    intro c hc
    rw [List.flatten_cons, List.head?_append_of_ne_nil _ hl.ne] at hc
    exact hl.start c hc

/-- The comparison of `headers_findb`, which reads no more than the name of the line. -/
def spells (name line : Bytes) : Bool :=
  headersNamelen line = name.length && strncasecmp line name name.length

theorem spells_append (name line rest : Bytes) :
    (headersNamelen line = name.length && strncasecmp (line ++ rest) name name.length)
      = spells name line := by
  by_cases hlength : headersNamelen line = name.length
  · have hle : name.length ≤ line.length :=
      hlength ▸ (List.takeWhile_prefix (inCharset headerChars)).length_le
    rw [spells, strncasecmp, strncasecmp, List.take_append_of_le_length hle]
  · rw [spells, decide_eq_false hlength, Bool.false_and, Bool.false_and]

/-- The loop of `headers_findb` counts lines. -/
theorem findLine_lines (ls : List Bytes) : ∀ {fuel ret : Nat}, (∀ l ∈ ls, IsLine l) →
    ls.flatten.length ≤ fuel →
    findLine name crlf fuel ls.flatten ret = (ls.findIdx? (spells name)).map (· + ret) := by
  induction ls with
  | nil =>
    intro fuel ret _ _
    cases fuel with
    | zero => rfl
    | succ fuel => rfl
  | cons l ls ih =>
    intro fuel ret hls hfuel
    obtain ⟨hl, hls⟩ := List.forall_mem_cons.1 hls
    have hpos := List.length_pos_of_ne_nil hl.ne
    rw [List.flatten_cons, List.length_append] at hfuel
    cases fuel with
    | zero => omega
    | succ fuel =>
      have hne : (l ++ ls.flatten).isEmpty = false := by
        simp [hl.ne]
      rw [List.flatten_cons, findLine, hne, if_neg Bool.false_ne_true]
      simp only [hl.next _ (flatten_noEnd hls), List.take_left, List.drop_left, spells_append,
        List.findIdx?_cons]
      cases hfound : spells name l with
      | true => simp
      | false =>
        simp only [Bool.false_eq_true, if_false]
        rw [ih hls (by omega), Option.map_map]
        congr 1
        funext n
        simp only [Function.comp_apply]
        omega

theorem lineAt_lines (pre : List Bytes) (l : Bytes) (post : List Bytes) : ∀ {fuel : Nat},
    (∀ l' ∈ pre ++ l :: post, IsLine l') → (pre ++ l :: post).flatten.length ≤ fuel →
    lineAt crlf fuel (pre ++ l :: post).flatten pre.length
      = some (l ++ post.flatten, headersLength l crlf) := by
  induction pre with
  | nil =>
    intro fuel hls hfuel
    rw [List.nil_append] at hls hfuel ⊢
    obtain ⟨hl, hpost⟩ := List.forall_mem_cons.1 hls
    have hpos := List.length_pos_of_ne_nil hl.ne
    rw [List.flatten_cons, List.length_append] at hfuel
    cases fuel with
    | zero => omega
    | succ fuel =>
      have hne : (l ++ post.flatten).isEmpty = false := by
        simp [hl.ne]
      rw [List.flatten_cons, lineAt, hne, if_neg Bool.false_ne_true]
      simp only [hl.next _ (flatten_noEnd hpost), List.take_left, List.length_nil]
  | cons g pre ih =>
    intro fuel hls hfuel
    rw [List.cons_append] at hls hfuel ⊢
    obtain ⟨hg, hls⟩ := List.forall_mem_cons.1 hls
    have hpos := List.length_pos_of_ne_nil hg.ne
    rw [List.flatten_cons, List.length_append] at hfuel
    cases fuel with
    | zero => omega
    | succ fuel =>
      have hne : (g ++ (pre ++ l :: post).flatten).isEmpty = false := by
        simp [hg.ne]
      rw [List.flatten_cons, lineAt, hne, if_neg Bool.false_ne_true]
      simp only [hg.next _ (flatten_noEnd hls), List.drop_left, List.length_cons]
      exact ih hls (by omega)

/-- The part of a line in front of its end. -/
def Header.text (h : Header) : Bytes := h.name ++ (keyDelim ++ h.value)

theorem Header.line_eq (itemdelim : Bytes) (h : Header) : h.line itemdelim = h.text ++ itemdelim := by
  simp only [Header.line, headerLine, Header.text, List.append_assoc]

theorem Header.text_oneLine (h : Header) : OneLine h.text := by
  intro c hc
  rcases List.mem_append.1 hc with hc | hc
  · exact headerChars_noEnd c (h.name_ok.2 c hc)
  · rcases List.mem_append.1 hc with hc | hc
    · exact keyDelim_oneLine c hc
    · exact h.value_ok c hc

theorem Header.isLine (hend : LineEnd itemdelim) (h : Header) : IsLine (h.line itemdelim) := by
  rw [h.line_eq]
  exact isLine_text (List.append_ne_nil_of_left_ne_nil h.name_ok.1 _) h.text_oneLine hend

theorem headersLength_line (hend : LineEnd itemdelim) (h : Header) :
    headersLength (h.line itemdelim) crlf = h.text.length := by
  have htext : ∀ c ∈ h.text, (!inCharset crlf c) = true := by
    intro c hc
    rw [h.text_oneLine c hc]
    rfl
  have hstop := hend.head (p := (!inCharset crlf ·)) (by decide) (by decide) []
  rw [List.append_nil] at hstop
  rw [headersLength, scanNoncharsetnskip, h.line_eq, takeWhile_all htext hstop]

/-! ## Finding a header -/

/-- The name is another spelling of the header's. -/
def Header.named (name : Bytes) (h : Header) : Bool := strcasecmp h.name name

theorem strcasecmp_iff {a b : Bytes} : strcasecmp a b = true ↔ a.map tolower = b.map tolower :=
  decide_eq_true_iff

theorem strcasecmp_length {a b : Bytes} (h : strcasecmp a b = true) : a.length = b.length := by
  simpa using congrArg List.length (strcasecmp_iff.1 h)

/-- The comparison of `headers_findb`. -/
theorem spells_line (h : Header) (hname : (0 : UInt8) ∉ name) :
    spells name (h.line itemdelim) = h.named name := by
  have hnamelen : headersNamelen (h.line itemdelim) = h.name.length :=
    headersNamelen_append h.name_ok _
  rw [spells, hnamelen]
  by_cases hlength : h.name.length = name.length
  · have htake : (h.line itemdelim).take name.length = h.name := by
      rw [Header.line, headerLine, ← hlength, List.take_left]
    simp only [hlength, decide_true, Bool.true_and, strncasecmp, htake, List.take_length,
      cString_of_not_mem hname, cString_of_not_mem h.name_ok.ne_zero]
    rfl
  · rw [Header.named, decide_eq_false hlength, Bool.false_and]
    exact (Bool.eq_false_iff.2 fun heq => hlength (strcasecmp_length heq)).symm

theorem line_ne_nil (itemdelim : Bytes) (h : Header) : h.line itemdelim ≠ [] := by
  rw [Header.line, headerLine]
  exact List.append_ne_nil_of_left_ne_nil h.name_ok.1 _

theorem block_cons (itemdelim : Bytes) (h : Header) (hs : List Header) :
    block itemdelim (h :: hs) = h.line itemdelim ++ block itemdelim hs := List.flatMap_cons

theorem block_append (itemdelim : Bytes) (hs hs' : List Header) :
    block itemdelim (hs ++ hs') = block itemdelim hs ++ block itemdelim hs' := List.flatMap_append

theorem block_eq_flatten (itemdelim : Bytes) (hs : List Header) :
    block itemdelim hs = (hs.map (Header.line itemdelim)).flatten := List.flatMap_def

theorem block_isLine (hend : LineEnd itemdelim) (hs : List Header) :
    ∀ l ∈ hs.map (Header.line itemdelim), IsLine l := by
  intro l hl
  obtain ⟨h, -, rfl⟩ := List.mem_map.1 hl
  exact h.isLine hend

theorem headersFindb_block (hend : LineEnd itemdelim) (hb : b.content = block itemdelim hs)
    (hname : (0 : UInt8) ∉ name) : headersFindb b name crlf = hs.findIdx? (Header.named name) := by
  have hspells : spells name ∘ Header.line itemdelim = Header.named name := by
    funext h
    exact spells_line h hname
  rw [headersFindb, hb, block_eq_flatten, findLine_lines _ (block_isLine hend hs) (Nat.le_refl _),
    List.findIdx?_map, hspells]
  exact Option.map_id'

theorem lineAt_block (hend : LineEnd itemdelim) (pre : List Header) (h : Header) (post : List Header)
    {fuel : Nat} (hfuel : (block itemdelim (pre ++ h :: post)).length ≤ fuel) :
    lineAt crlf fuel (block itemdelim (pre ++ h :: post)) pre.length
      = some (h.line itemdelim ++ block itemdelim post, h.text.length) := by
  have hlines := block_isLine hend (pre ++ h :: post)
  rw [block_eq_flatten] at hfuel ⊢
  rw [List.map_append, List.map_cons] at hlines hfuel ⊢
  have hat := lineAt_lines _ _ _ hlines hfuel
  rwa [List.length_map, headersLength_line hend, ← block_eq_flatten] at hat

theorem block_position {i : Nat} (hi : i < (block itemdelim hs).length) :
    ∃ pre h post off, hs = pre ++ h :: post ∧ i = (block itemdelim pre).length + off ∧
      off < (h.line itemdelim).length := by
  induction hs generalizing i with
  | nil => exact absurd hi (Nat.not_lt_zero i)
  | cons g hs ih =>
    by_cases hfirst : i < (g.line itemdelim).length
    · exact ⟨[], g, hs, i, rfl, (Nat.zero_add i).symm, hfirst⟩
    · rw [block_cons, List.length_append] at hi
      obtain ⟨pre, h, post, off, rfl, hpos, hoff⟩ := @ih (i - (g.line itemdelim).length) (by omega)
      refine ⟨g :: pre, h, post, off, rfl, ?_, hoff⟩
      rw [block_cons, List.length_append]
      omega

theorem headersNext_inside (hend : LineEnd itemdelim) (h : Header) {off : Nat}
    (hoff : off < (h.line itemdelim).length) (hrest : NoEnd rest) :
    headersNext ((h.line itemdelim).drop off ++ rest) crlf = (h.line itemdelim).length - off := by
  rw [h.line_eq, List.length_append] at hoff ⊢
  rw [List.drop_append]
  by_cases htext : off ≤ h.text.length
  · rw [Nat.sub_eq_zero_of_le htext, List.drop_zero, List.append_assoc,
      headersNext_append (fun c hc => h.text_oneLine c (List.mem_of_mem_drop hc)) hend.inCharset
        hend.ne hrest, List.length_drop]
    omega
  · have hnil : h.text.drop off = [] := List.drop_eq_nil_iff.2 (by omega)
    have hne : itemdelim.drop (off - h.text.length) ≠ [] := by
      rw [Ne, List.drop_eq_nil_iff]
      omega
    have hnext := @headersNext_append rest [] _ (fun c hc => absurd hc List.not_mem_nil)
      (fun c hc => hend.inCharset c (List.mem_of_mem_drop hc)) hne hrest
    rw [hnil, List.append_assoc, hnext, List.length_drop, List.length_nil]
    omega

/-! ## The value of a header -/

/-- What a lookup leaves of a value. -/
def trimmed (value : Bytes) : Bytes := (value.dropWhile (inCharset keyDelim)).dropWhile isspace

/-- What the lookup skips is not at the beginning of the value. -/
def Unskipped (value : Bytes) : Prop :=
  ∀ c ∈ value.head?, inCharset keyDelim c = false ∧ isspace c = false

instance (value : Bytes) : Decidable (Unskipped value) :=
  inferInstanceAs (Decidable (∀ c ∈ value.head?, _))

theorem dropWhile_eq_self {p : UInt8 → Bool} {x : Bytes} :
    x.dropWhile p = x ↔ ∀ c ∈ x.head?, p c = false := by
  cases x with
  | nil => exact iff_of_true rfl fun c hc => nomatch hc
  | cons d x =>
    rw [List.dropWhile_eq_self_iff]
    simp

theorem trimmed_eq_self_iff : trimmed value = value ↔ Unskipped value := by
  have hboth : trimmed value = value ↔
      value.dropWhile (inCharset keyDelim) = value ∧ value.dropWhile isspace = value := by
    refine ⟨?_, ?_⟩
    · intro h
      have hsuffix : value.dropWhile (inCharset keyDelim) <:+ value := List.dropWhile_suffix _
      have hlength := (List.dropWhile_suffix isspace (l := value.dropWhile (inCharset keyDelim))).length_le
      have hkey : value.dropWhile (inCharset keyDelim) = value := by
        refine hsuffix.eq_of_length_le ?_
        rwa [← trimmed, h] at hlength
      rw [trimmed, hkey] at h
      exact ⟨hkey, h⟩
    · intro h
      rw [trimmed, h.1, h.2]
  rw [hboth, dropWhile_eq_self, dropWhile_eq_self]
  exact ⟨fun h c hc => ⟨h.1 c hc, h.2 c hc⟩, fun h => ⟨fun c hc => (h c hc).1, fun c hc => (h c hc).2⟩⟩

/-- The result of a lookup that finds the header. Where nothing is left of the value, the scan goes
on behind the line, and the length is negative. -/
def Header.found (h : Header) : Option (Option Bytes) :=
  if trimmed h.value = [] then none else some (some (trimmed h.value))

theorem Header.found_iff (h : Header) :
    h.found = some (some h.value) ↔ h.value ≠ [] ∧ Unskipped h.value := by
  rw [← trimmed_eq_self_iff, Header.found]
  split
  · next hnil =>
    refine iff_of_false (by simp) ?_
    intro hvalue
    exact hvalue.1 (hvalue.2.symm.trans hnil)
  · next hne =>
    simp only [Option.some.injEq]
    exact ⟨fun heq => ⟨heq ▸ hne, heq⟩, fun hvalue => hvalue.2⟩

/-- Where the value begins, for the scan of `headers_value`. -/
theorem headersValue_line (hend : LineEnd itemdelim) (h : Header) (rest : Bytes) :
    headersValue (h.line itemdelim ++ rest) keyDelim = h.name.length + 2
      + (h.value.takeWhile (inCharset keyDelim)).length
      + (((h.value.dropWhile (inCharset keyDelim)) ++ (itemdelim ++ rest)).takeWhile isspace).length := by
  have hline : h.line itemdelim ++ rest
      = h.name ++ (keyDelim ++ (h.value ++ (itemdelim ++ rest))) := by
    simp only [Header.line, headerLine, List.append_assoc]
  have hnamelen := headersNamelen_append h.name_ok (h.value ++ (itemdelim ++ rest))
  have hskip : scanCharsetnskip (keyDelim ++ (h.value ++ (itemdelim ++ rest))) keyDelim
      = 2 + (h.value.takeWhile (inCharset keyDelim)).length := by
    rw [scanCharsetnskip, List.takeWhile_append_of_pos (by decide),
      takeWhile_append_stop (hend.head (by decide) (by decide) rest), List.length_append]
    rfl
  have hdrop : (keyDelim ++ (h.value ++ (itemdelim ++ rest))).drop
        (2 + (h.value.takeWhile (inCharset keyDelim)).length)
      = h.value.dropWhile (inCharset keyDelim) ++ (itemdelim ++ rest) := by
    have hsplit : h.value ++ (itemdelim ++ rest) = h.value.takeWhile (inCharset keyDelim)
        ++ (h.value.dropWhile (inCharset keyDelim) ++ (itemdelim ++ rest)) := by
      rw [← List.append_assoc (h.value.takeWhile _), List.takeWhile_append_dropWhile]
    rw [← List.drop_drop]
    show (h.value ++ (itemdelim ++ rest)).drop _ = _
    rw [hsplit, List.drop_left]
  rw [hline, headersValue]
  simp only [hnamelen, List.drop_left, hskip]
  rw [← List.drop_drop, List.drop_left, hdrop, scanWhitenskip]
  omega

theorem text_length (h : Header) : h.text.length = h.name.length + 2 + h.value.length := by
  simp only [Header.text, List.length_append, Nat.add_assoc]
  rfl

/-- A value with nothing left: the scan for white space goes on behind the end of the line. -/
theorem headersValue_blank (hend : LineEnd itemdelim) (h : Header) (hblank : trimmed h.value = [])
    (rest : Bytes) : h.text.length < headersValue (h.line itemdelim ++ rest) keyDelim := by
  have hvalue : (h.value.takeWhile (inCharset keyDelim)).length
      + (h.value.dropWhile (inCharset keyDelim)).length = h.value.length := by
    rw [← List.length_append, List.takeWhile_append_dropWhile]
  have hall : ∀ c ∈ h.value.dropWhile (inCharset keyDelim), isspace c = true :=
    List.dropWhile_eq_nil_iff.1 hblank
  obtain ⟨e, es, rfl⟩ := List.exists_cons_of_ne_nil hend.ne
  have he : isspace e = true := by
    rcases hend.eol e List.mem_cons_self with rfl | rfl
    · decide
    · decide
  rw [headersValue_line hend, text_length, List.takeWhile_append_of_pos hall, List.cons_append,
    List.takeWhile_cons_of_pos he, List.length_append, List.length_cons]
  omega

/-- Otherwise it stops in front of what is left. -/
theorem headersValue_trimmed (hend : LineEnd itemdelim) (h : Header) (hne : trimmed h.value ≠ [])
    (rest : Bytes) : ∃ before,
      h.line itemdelim ++ rest = before ++ (trimmed h.value ++ (itemdelim ++ rest)) ∧
      headersValue (h.line itemdelim ++ rest) keyDelim = before.length ∧
      h.text.length = before.length + (trimmed h.value).length := by
  have hsplit : h.value = h.value.takeWhile (inCharset keyDelim)
      ++ ((h.value.dropWhile (inCharset keyDelim)).takeWhile isspace ++ trimmed h.value) := by
    rw [trimmed, List.takeWhile_append_dropWhile, List.takeWhile_append_dropWhile]
  have hstop : ∀ c ∈ (trimmed h.value ++ (itemdelim ++ rest)).head?, isspace c = false := by
    intro c hc
    rw [List.head?_append_of_ne_nil _ hne] at hc
    exact head_dropWhile _ c hc
  have hscan : (h.value.dropWhile (inCharset keyDelim) ++ (itemdelim ++ rest)).takeWhile isspace
      = (h.value.dropWhile (inCharset keyDelim)).takeWhile isspace := by
    conv_lhs => rw [← @List.takeWhile_append_dropWhile _ isspace (h.value.dropWhile _),
      List.append_assoc]
    exact takeWhile_all (fun c hc => List.mem_takeWhile_imp hc) hstop
  refine ⟨h.name ++ (keyDelim ++ (h.value.takeWhile (inCharset keyDelim)
    ++ (h.value.dropWhile (inCharset keyDelim)).takeWhile isspace)), ?_, ?_, ?_⟩
  · rw [Header.line, headerLine]
    conv_lhs => rw [hsplit]
    simp only [List.append_assoc]
  · rw [headersValue_line hend, hscan]
    simp only [List.length_append, Nat.add_assoc]
    rfl
  · rw [text_length]
    conv_lhs => rw [hsplit]
    simp only [List.length_append, Nat.add_assoc]
    rfl

/-- The value that `headers_getlen` cuts out of the block. -/
theorem valueIn_line (hend : LineEnd itemdelim) (h : Header) (rest : Bytes) :
    valueIn keyDelim (h.line itemdelim ++ rest) h.text.length = h.found := by
  unfold valueIn Header.found
  by_cases hblank : trimmed h.value = []
  · rw [if_pos hblank, if_neg (Nat.not_le.2 (headersValue_blank hend h hblank rest))]
  · obtain ⟨before, hline, hvalue, hlength⟩ := headersValue_trimmed hend h hblank rest
    simp only [hvalue, hlength]
    rw [if_neg hblank, if_pos (Nat.le_add_right _ _), Nat.add_sub_cancel_left, hline,
      List.drop_left, List.take_left]

theorem headersGetlen_block (hend : LineEnd itemdelim) (hb : b.content = block itemdelim hs)
    (name : Bytes) : headersGetlen b name crlf keyDelim
      = (hs.find? (Header.named (cString name))).elim (some none) Header.found := by
  have hname : (0 : UInt8) ∉ cString name := fun hmem =>
    absurd (List.mem_takeWhile_imp hmem) (by decide)
  rw [headersGetlen, headersFind, headersFindb_block hend hb hname]
  cases hidx : hs.findIdx? (Header.named (cString name)) with
  | none =>
    rw [List.find?_eq_none.2]
    · rfl
    · simpa [List.findIdx?_eq_none_iff] using hidx
  | some i =>
    obtain ⟨pre, h, post, rfl, hi, hfound, hbefore⟩ := Matching.findIdx?_split hidx
    have hfind : (pre ++ h :: post).find? (Header.named (cString name)) = some h :=
      List.find?_eq_some_iff_append.2 ⟨hfound, pre, post, rfl, fun g hg => by simp [hbefore g hg]⟩
    have hat : headersAt b i crlf = some (h.line itemdelim ++ block itemdelim post, h.text.length) := by
      rw [headersAt, hb, ← hi, lineAt_block hend pre h post (Nat.le_refl _)]
    rw [hfind, Option.elim_some, ← valueIn_line hend h (block itemdelim post)]
    simp only [hat, Option.bind_some]

end QjsNet
