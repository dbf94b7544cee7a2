import QjsNet.HeadersObject

/- Looking up a header (`headers.c`) in any block of `name: value` lines.

   The name of a line is what is in front of its first colon, and a line ends with `"\r\n"` or
   `"\n"`. `headers_getlen` compares what a name has in front of its first character that is
   not a letter, a digit, `_` or `-`, skips the key delimiter and white space, which a
   line end is as well, and subtracts what it has skipped from the length of the line. `none`
   is a length that has wrapped around.

   Correspondence (C ↔ Lean):
     the pointer and the length of `headers_getlen`  ↔ `headersSpan` -/
namespace QjsNet

/-- Not empty, without a colon and in one line. -/
def FieldName (name : Bytes) : Prop := name ≠ [] ∧ (58 : UInt8) ∉ name ∧ OneLine name

instance (name : Bytes) : Decidable (FieldName name) := inferInstanceAs (Decidable (_ ∧ _))

structure FieldLine where
  name : Bytes
  value : Bytes
  eol : Bytes
  name_ok : FieldName name
  value_ok : OneLine value
  eol_ok : eol = crlf ∨ eol = lineFeed

/-- The line without its end. -/
def FieldLine.text (l : FieldLine) : Bytes := l.name ++ (keyDelim ++ l.value)

def FieldLine.line (l : FieldLine) : Bytes := l.text ++ l.eol

def fieldBlock (ls : List FieldLine) : Bytes := (ls.map FieldLine.line).flatten

/-- Where the value of a header is in the buffer, and how long it is. -/
def headersSpan (b : ByteBuffer) (name itemdelim keydelim : Bytes) : Option (Option (Nat × Nat)) :=
  match headersFind b name itemdelim with
  | none => some none
  | some i => (headersAt b i itemdelim).bind fun line =>
    let n := headersValue line.1 keydelim
    if n ≤ line.2 then some (some (b.content.length - line.1.length + n, line.2 - n)) else none

/-- The name of the line, in any case. -/
def FieldLine.named (name : Bytes) (l : FieldLine) : Bool := strcasecmp l.name (cString name)

/-- The part of the name that is compared. -/
def FieldLine.found (name : Bytes) (l : FieldLine) : Bool :=
  strcasecmp (l.name.takeWhile (inCharset headerChars)) (cString name)

/-- Where a value that reaches to the end of its line is, behind the lines `pre`. -/
def valueSpan (pre : List FieldLine) (l : FieldLine) (value : Bytes) : Nat × Nat :=
  ((fieldBlock pre).length + (l.text.length - value.length), value.length)

/-- A lookup gives the value of the first line with the name, as far as `strip` leaves it, and
nothing where no line has it. -/
structure LooksUp (strip : Bytes → Bytes) (b : ByteBuffer) (ls : List FieldLine)
    (name keydelim : Bytes) : Prop where
  absent : (∀ l ∈ ls, l.named name = false) → headersSpan b name crlf keydelim = some none
  first : ∀ pre l post, ls = pre ++ l :: post → (∀ g ∈ pre, g.named name = false) →
    l.named name = true →
    headersSpan b name crlf keydelim = some (some (valueSpan pre l (strip l.value)))

variable {l : FieldLine} {ls pre post : List FieldLine} {b : ByteBuffer} {name keydelim rest : Bytes}

/-! ## Lines of any name -/

theorem FieldLine.eol_lineEnd (l : FieldLine) : LineEnd l.eol := by
  obtain h | h := l.eol_ok
  · rw [h]
    exact lineEnd_crlf
  · rw [h]
    exact ⟨by decide, by decide⟩

theorem FieldLine.text_oneLine (l : FieldLine) : OneLine l.text := by
  intro c hc
  obtain hc | hc := List.mem_append.1 hc
  · exact l.name_ok.2.2 c hc
  · obtain hc | hc := List.mem_append.1 hc
    · exact keyDelim_oneLine c hc
    · exact l.value_ok c hc

theorem FieldLine.isLine (l : FieldLine) : IsLine l.line :=
  isLine_text (List.append_ne_nil_of_left_ne_nil l.name_ok.1 _) l.text_oneLine l.eol_lineEnd

theorem fieldLines_isLine (ls : List FieldLine) : ∀ x ∈ ls.map FieldLine.line, IsLine x := by
  intro x hx
  obtain ⟨l, -, rfl⟩ := List.mem_map.1 hx
  exact l.isLine

theorem fieldBlock_append (pre post : List FieldLine) :
    fieldBlock (pre ++ post) = fieldBlock pre ++ fieldBlock post := by
  rw [fieldBlock, List.map_append, List.flatten_append]
  rfl

theorem fieldBlock_cons (l : FieldLine) (ls : List FieldLine) :
    fieldBlock (l :: ls) = l.line ++ fieldBlock ls := rfl

theorem FieldLine.text_lt_line (l : FieldLine) : l.text.length < l.line.length := by
  rw [FieldLine.line, List.length_append]
  have hpos := List.length_pos_of_ne_nil l.eol_lineEnd.ne
  omega

theorem FieldLine.text_length (l : FieldLine) :
    l.text.length = l.name.length + 2 + l.value.length := by
  simp only [FieldLine.text, List.length_append, Nat.add_assoc]
  rfl

theorem FieldLine.headersLength (l : FieldLine) : headersLength l.line crlf = l.text.length := by
  have htext : ∀ c ∈ l.text, (!inCharset crlf c) = true := by
    intro c hc
    rw [l.text_oneLine c hc]
    rfl
  have hstop := l.eol_lineEnd.head (p := (!inCharset crlf ·)) (by decide) (by decide) []
  rw [List.append_nil] at hstop
  rw [QjsNet.headersLength, scanNoncharsetnskip, FieldLine.line, takeWhile_all htext hstop]

/-- The name is compared up to the first character that does not belong to one. -/
theorem FieldLine.namelen (l : FieldLine) (rest : Bytes) :
    headersNamelen (l.line ++ rest) = (l.name.takeWhile (inCharset headerChars)).length := by
  have hstop : ∀ c ∈ (keyDelim ++ (l.value ++ (l.eol ++ rest))).head?,
      inCharset headerChars c = false := by
    intro c hc
    exact Option.some.inj hc ▸ (by decide : inCharset headerChars 58 = false)
  have hline : l.line ++ rest = l.name ++ (keyDelim ++ (l.value ++ (l.eol ++ rest))) := by
    simp only [FieldLine.line, FieldLine.text, List.append_assoc]
  rw [hline, headersNamelen, scanCharsetnskip, takeWhile_append_stop hstop]

theorem cString_no_zero (s : Bytes) : (0 : UInt8) ∉ cString s :=
  fun hmem => absurd (List.mem_takeWhile_imp hmem) (by decide)

theorem FieldLine.spells (l : FieldLine) (name : Bytes) :
    spells (cString name) l.line = l.found name := by
  have hnamelen := l.namelen []
  rw [List.append_nil] at hnamelen
  rw [QjsNet.spells, hnamelen, FieldLine.found]
  by_cases hlength : (l.name.takeWhile (inCharset headerChars)).length = (cString name).length
  · have hstart : l.name.takeWhile (inCharset headerChars) <+: l.line := by
      refine (List.takeWhile_prefix _).trans ?_
      rw [FieldLine.line, FieldLine.text, List.append_assoc]
      exact List.prefix_append _ _
    have htake : l.line.take (cString name).length = l.name.takeWhile (inCharset headerChars) := by
      rw [← hlength]
      exact (List.prefix_iff_eq_take.1 hstart).symm
    have hzero : (0 : UInt8) ∉ l.name.takeWhile (inCharset headerChars) := fun hmem =>
      absurd ((List.takeWhile_prefix _).subset hmem) l.name_ok.2.2.ne_zero
    simp only [hlength, decide_true, Bool.true_and, strncasecmp, htake, List.take_length,
      cString_of_not_mem (cString_no_zero name), cString_of_not_mem hzero]
  · rw [decide_eq_false hlength, Bool.false_and]
    exact (Bool.eq_false_iff.2 fun heq => hlength (strcasecmp_length heq)).symm

theorem headersFind_fields (hb : b.content = fieldBlock ls) (name : Bytes) :
    headersFind b name crlf = ls.findIdx? (FieldLine.found name) := by
  have hspells : spells (cString name) ∘ FieldLine.line = FieldLine.found name := by
    funext l
    exact l.spells name
  rw [headersFind, headersFindb, hb, fieldBlock,
    findLine_lines _ (fieldLines_isLine ls) (Nat.le_refl _), List.findIdx?_map, hspells]
  exact Option.map_id'

theorem span_absent (hb : b.content = fieldBlock ls) (h : ∀ l ∈ ls, l.found name = false)
    (keydelim : Bytes) : headersSpan b name crlf keydelim = some none := by
  rw [headersSpan, headersFind_fields hb, List.findIdx?_eq_none_iff.2 h]

theorem span_found (hb : b.content = fieldBlock (pre ++ l :: post))
    (hpre : ∀ g ∈ pre, g.found name = false) (hfound : l.found name = true) (keydelim : Bytes) :
    headersSpan b name crlf keydelim =
      if headersValue (l.line ++ fieldBlock post) keydelim ≤ l.text.length then
        some (some ((fieldBlock pre).length + headersValue (l.line ++ fieldBlock post) keydelim,
          l.text.length - headersValue (l.line ++ fieldBlock post) keydelim))
      else none := by
  have hidx : (pre ++ l :: post).findIdx? (FieldLine.found name) = some pre.length :=
    Matching.findIdx?_first hpre hfound
  have hlines := fieldLines_isLine (pre ++ l :: post)
  rw [List.map_append, List.map_cons] at hlines
  have hat : headersAt b pre.length crlf = some (l.line ++ fieldBlock post, l.text.length) := by
    have hat := lineAt_lines _ _ _ hlines (Nat.le_refl _)
    rw [List.length_map, l.headersLength] at hat
    rw [headersAt, hb, fieldBlock, List.map_append, List.map_cons, hat]
    rfl
  have hoffset : b.content.length - (l.line ++ fieldBlock post).length = (fieldBlock pre).length := by
    rw [hb, fieldBlock_append, fieldBlock_cons, List.length_append, Nat.add_sub_cancel]
  rw [headersSpan, headersFind_fields hb, hidx]
  simp only [hat, Option.bind_some, hoffset]

/-! ## Values -/

/-- The key delimiters of the callers. -/
def KeyDelimiter (keydelim : Bytes) : Prop := keydelim = [58] ∨ keydelim = keyDelim

/-- What a lookup leaves of a value. -/
def leftOf (keydelim value : Bytes) : Bytes :=
  ((keyDelim ++ value).dropWhile (inCharset keydelim)).dropWhile isspace

theorem takeWhile_dropWhile_length (p : UInt8 → Bool) (x : Bytes) :
    (x.takeWhile p).length + (x.dropWhile p).length = x.length := by
  rw [← List.length_append, List.takeWhile_append_dropWhile]

theorem drop_takeWhile (p : UInt8 → Bool) (x y : Bytes) :
    (x ++ y).drop (x.takeWhile p).length = x.dropWhile p ++ y := by
  conv_lhs => rw [← List.takeWhile_append_dropWhile (p := p) (l := x), List.append_assoc]
  rw [List.takeWhile_append_dropWhile, List.drop_left]

/-- Where the value of a line begins. With nothing left, the scan for white space goes on behind the
end of the line. -/
theorem headersValue_field (hkey : KeyDelimiter keydelim)
    (hname : ∀ c ∈ l.name, inCharset headerChars c = true) (rest : Bytes) :
    (leftOf keydelim l.value = [] → l.text.length < headersValue (l.line ++ rest) keydelim) ∧
    (leftOf keydelim l.value ≠ [] →
      headersValue (l.line ++ rest) keydelim + (leftOf keydelim l.value).length = l.text.length) := by
  have hnamelen : headersNamelen (l.line ++ rest) = l.name.length := by
    rw [l.namelen, List.takeWhile_eq_self_iff.2 hname]
  have hline : l.line ++ rest = l.name ++ ((keyDelim ++ l.value) ++ (l.eol ++ rest)) := by
    simp only [FieldLine.line, FieldLine.text, List.append_assoc]
  have hstop : ∀ c ∈ (l.eol ++ rest).head?, inCharset keydelim c = false := by
    obtain h | h := hkey
    · rw [h]
      exact l.eol_lineEnd.head (by decide) (by decide) rest
    · rw [h]
      exact l.eol_lineEnd.head (by decide) (by decide) rest
  have hkeylen := takeWhile_dropWhile_length (inCharset keydelim) (keyDelim ++ l.value)
  have hwhite := takeWhile_dropWhile_length isspace
    ((keyDelim ++ l.value).dropWhile (inCharset keydelim))
  have htext : l.text.length = l.name.length + (keyDelim ++ l.value).length := List.length_append
  have hskip : scanCharsetnskip ((keyDelim ++ l.value) ++ (l.eol ++ rest)) keydelim =
      ((keyDelim ++ l.value).takeWhile (inCharset keydelim)).length := by
    rw [scanCharsetnskip, takeWhile_append_stop hstop]
  have hvalue : headersValue (l.line ++ rest) keydelim = l.name.length +
      ((keyDelim ++ l.value).takeWhile (inCharset keydelim)).length +
      (((keyDelim ++ l.value).dropWhile (inCharset keydelim) ++ (l.eol ++ rest)).takeWhile
        isspace).length := by
    rw [headersValue, hnamelen, hline]
    simp only [List.drop_left, hskip]
    rw [← List.drop_drop, List.drop_left, drop_takeWhile, scanWhitenskip]
  refine ⟨fun hnil => ?_, fun hne => ?_⟩
  · have hall : ∀ c ∈ (keyDelim ++ l.value).dropWhile (inCharset keydelim), isspace c = true :=
      List.dropWhile_eq_nil_iff.1 hnil
    obtain ⟨e, es, heol⟩ := List.exists_cons_of_ne_nil l.eol_lineEnd.ne
    have he : isspace e = true := by
      obtain rfl | rfl := l.eol_lineEnd.eol e (heol ▸ List.mem_cons_self)
      · decide
      · decide
    rw [leftOf] at hnil
    rw [hnil, List.length_nil] at hwhite
    rw [hvalue, List.takeWhile_append_of_pos hall, heol, List.cons_append,
      List.takeWhile_cons_of_pos he, List.length_append, List.length_cons]
    omega
  · have hscan : ((keyDelim ++ l.value).dropWhile (inCharset keydelim) ++ (l.eol ++ rest)).takeWhile
        isspace = ((keyDelim ++ l.value).dropWhile (inCharset keydelim)).takeWhile isspace := by
      rw [List.takeWhile_append, if_neg]
      intro hlen
      have hnil : (leftOf keydelim l.value).length = 0 := by
        rw [leftOf]
        omega
      exact hne (List.length_eq_zero_iff.1 hnil)
    rw [hvalue, hscan, leftOf]
    omega

/-- A name that is found and is the name of the line is one of letters, digits, `_` and `-`. -/
theorem found_named_chars (hnamed : l.named name = true) (hfound : l.found name = true) :
    ∀ c ∈ l.name, inCharset headerChars c = true := by
  have hlength := (strcasecmp_length hfound).trans (strcasecmp_length hnamed).symm
  have hwhole := (List.takeWhile_prefix (inCharset headerChars)).eq_of_length hlength
  exact List.takeWhile_eq_self_iff.1 hwhole

/-- The span is that of a value at the end of the line exactly when as much is left of it. -/
theorem span_value_iff (hb : b.content = fieldBlock (pre ++ l :: post))
    (hpre : ∀ g ∈ pre, g.found name = false) (hfound : l.found name = true)
    (hchars : ∀ c ∈ l.name, inCharset headerChars c = true) (hkey : KeyDelimiter keydelim)
    {value : Bytes} (hvalue : value.length ≤ l.value.length) :
    headersSpan b name crlf keydelim = some (some (valueSpan pre l value)) ↔
      leftOf keydelim l.value ≠ [] ∧ (leftOf keydelim l.value).length = value.length := by
  obtain ⟨hnil, hne⟩ := headersValue_field hkey hchars (fieldBlock post)
  have htext := l.text_length
  rw [span_found hb hpre hfound, valueSpan]
  by_cases hleft : leftOf keydelim l.value = []
  · rw [if_neg (Nat.not_le.2 (hnil hleft))]
    refine ⟨fun h => ?_, fun h => absurd hleft h.1⟩
    cases h
  · have hlength := hne hleft
    rw [if_pos (by omega)]
    simp only [Option.some.injEq, Prod.mk.injEq, ne_eq, hleft, not_false_eq_true, true_and]
    omega

/-! ## The first line -/

theorem fieldBlock_lt {pre' post' : List FieldLine} {l' : FieldLine}
    (h : pre ++ l :: post = pre' ++ l' :: post') (hlt : pre.length < pre'.length) :
    (fieldBlock pre).length + l.text.length < (fieldBlock pre').length := by
  have hstart : pre ++ [l] <+: pre' := by
    have hfront : pre ++ [l] <+: pre ++ l :: post := ⟨post, by rw [List.append_assoc]; rfl⟩
    have hfront' : pre' <+: pre ++ l :: post := ⟨l' :: post', h.symm⟩
    refine List.prefix_of_prefix_length_le hfront hfront' ?_
    rw [List.length_append]
    exact hlt
  obtain ⟨mid, rfl⟩ := hstart
  have hline := l.text_lt_line
  rw [fieldBlock_append, fieldBlock_append, List.length_append, List.length_append]
  have hone : (fieldBlock [l]).length = l.line.length := by
    rw [fieldBlock_cons, List.length_append]
    rfl
  omega

theorem line_unique {pre' post' : List FieldLine} {l' : FieldLine} {o : Nat}
    (h : pre ++ l :: post = pre' ++ l' :: post')
    (ho : (fieldBlock pre).length ≤ o ∧ o ≤ (fieldBlock pre).length + l.text.length)
    (ho' : (fieldBlock pre').length ≤ o ∧ o ≤ (fieldBlock pre').length + l'.text.length) :
    pre = pre' ∧ l = l' := by
  have hlength : pre.length = pre'.length := by
    obtain hlt | heq | hlt := Nat.lt_trichotomy pre.length pre'.length
    · have hbehind := fieldBlock_lt h hlt
      omega
    · exact heq
    · have hbehind := fieldBlock_lt h.symm hlt
      omega
  obtain ⟨hpre, hrest⟩ := List.append_inj h hlength
  exact ⟨hpre, (List.cons.inj hrest).1⟩

theorem span_line {pre' post' : List FieldLine} {n f : FieldLine} {value : Bytes}
    (hb : b.content = fieldBlock (pre ++ n :: post))
    (heq : pre ++ n :: post = pre' ++ f :: post') (hpre' : ∀ g ∈ pre', g.found name = false)
    (hfound : f.found name = true)
    (hspan : headersSpan b name crlf keydelim = some (some (valueSpan pre n value))) :
    pre = pre' ∧ n = f := by
  rw [span_found (heq ▸ hb) hpre' hfound] at hspan
  split at hspan
  · next hle =>
    have hoffset : (fieldBlock pre').length + headersValue (f.line ++ fieldBlock post') keydelim =
        (fieldBlock pre).length + (n.text.length - value.length) :=
      congrArg Prod.fst (Option.some.inj (Option.some.inj hspan))
    apply line_unique heq (o := (fieldBlock pre).length + (n.text.length - value.length))
    · omega
    · omega
  · cases hspan

theorem LooksUp.found_named {strip : Bytes → Bytes} (h : LooksUp strip b ls name keydelim)
    (hb : b.content = fieldBlock ls) (hkey : KeyDelimiter keydelim)
    (hstrip : ∀ v, (strip v).length ≤ v.length) (hl : l ∈ ls)
    (hboth : (l.named name || l.found name) = true) :
    ∃ pre n post, ls = pre ++ n :: post
      ∧ (∀ g ∈ pre, (g.named name || g.found name) = false)
      ∧ n.named name = true ∧ n.found name = true ∧ leftOf keydelim n.value ≠ []
      ∧ (leftOf keydelim n.value).length = (strip n.value).length := by
  obtain hnone | ⟨pre, n, post, rfl, hpre, hnamed⟩ := Matching.first_split (FieldLine.named name) ls
  · -- Without the name nothing may be found.
    have hspan := h.absent hnone
    obtain hnone' | ⟨pre, f, post, rfl, hpre, hfound⟩ := Matching.first_split (FieldLine.found name) ls
    · rw [hnone l hl, hnone' l hl] at hboth
      cases hboth
    · rw [span_found hb hpre hfound] at hspan
      split at hspan <;> cases hspan
  · have hspan := h.first pre n post rfl hpre hnamed
    obtain hnone' | ⟨pre', f, post', heq, hpre', hfound⟩ :=
      Matching.first_split (FieldLine.found name) (pre ++ n :: post)
    · rw [span_absent hb hnone'] at hspan
      cases hspan
    · obtain ⟨rfl, rfl⟩ := span_line hb heq hpre' hfound hspan
      obtain ⟨hne, hlength⟩ := (span_value_iff hb hpre' hfound
        (found_named_chars hnamed hfound) hkey (hstrip _)).1 hspan
      refine ⟨pre, n, post, rfl, ?_, hnamed, hfound, hne, hlength⟩
      intro g hg
      rw [hpre g hg, hpre' g hg]
      rfl

/-- A lookup is right exactly when the first line that has the name or is found does and is both,
and as much is left of its value as there should be. -/
theorem looksUp_iff (hb : b.content = fieldBlock ls) (hkey : KeyDelimiter keydelim)
    {strip : Bytes → Bytes} (hstrip : ∀ v, (strip v).length ≤ v.length) :
    LooksUp strip b ls name keydelim ↔
      ∀ l ∈ ls.find? (fun l => l.named name || l.found name),
        l.named name = true ∧ l.found name = true ∧ leftOf keydelim l.value ≠ [] ∧
          (leftOf keydelim l.value).length = (strip l.value).length := by
  constructor
  · intro h l hl
    have hboth := List.find?_some hl
    obtain ⟨pre, n, post, rfl, hpre, hnamed, hfound, hvalue⟩ :=
      h.found_named hb hkey hstrip (List.mem_of_find?_eq_some hl) hboth
    have hfirst : (pre ++ n :: post).find? (fun l => l.named name || l.found name) = some n :=
      Matching.find?_first hpre (by rw [hnamed]; rfl)
    rw [hfirst] at hl
    cases hl
    exact ⟨hnamed, hfound, hvalue⟩
  · intro h
    obtain hnone | ⟨pre, l, post, rfl, hpre, hl⟩ :=
      Matching.first_split (fun l => l.named name || l.found name) ls
    · have hnone' : ∀ l ∈ ls, l.named name = false ∧ l.found name = false :=
        fun l hl => Bool.or_eq_false_iff.1 (hnone l hl)
      refine ⟨fun _ => span_absent hb (fun l hl => (hnone' l hl).2) keydelim, ?_⟩
      rintro pre l post rfl - hnamed
      exact absurd hnamed (by rw [(hnone' l (by simp)).1]; decide)
    · have hpre' : ∀ g ∈ pre, g.named name = false ∧ g.found name = false :=
        fun g hg => Bool.or_eq_false_iff.1 (hpre g hg)
      obtain ⟨hnamed, hfound, hvalue⟩ := h l (Matching.find?_first hpre hl)
      refine ⟨fun hnone => absurd hnamed (by rw [hnone l (by simp)]; decide), ?_⟩
      intro pre₁ l₁ post₁ heq hpre₁ hnamed₁
      obtain ⟨rfl, rfl⟩ := Matching.first_unique heq (fun g hg => (hpre' g hg).1) hnamed hpre₁ hnamed₁
      exact (span_value_iff hb (fun g hg => (hpre' g hg).2) hfound
        (found_named_chars hnamed hfound) hkey (hstrip _)).2 hvalue

/-! ## What is left of a value -/

/-- There is a value, and the lookup skips nothing of it. -/
def ReadWhole (keydelim value : Bytes) : Prop :=
  value ≠ [] ∧ ∀ c ∈ value.head?, isspace c = false ∧ (keydelim = keyDelim → c ≠ 58)

/-- There is a value behind the white space, and the lookup skips only that: no colon behind blanks.
-/
def ReadStripped (keydelim value : Bytes) : Prop :=
  value.dropWhile isspace ≠ [] ∧
    (keydelim = keyDelim → ∀ c ∈ (value.dropWhile (· = 32)).head?, c ≠ 58)

instance (keydelim value : Bytes) : Decidable (ReadWhole keydelim value) :=
  inferInstanceAs (Decidable (_ ∧ _))

theorem leftOf_colon (value : Bytes) : leftOf [58] value = value.dropWhile isspace := rfl

theorem leftOf_keyDelim (value : Bytes) : leftOf keyDelim value = trimmed value := rfl

theorem dropWhile_length_iff {p : UInt8 → Bool} {x : Bytes} :
    (x.dropWhile p).length = x.length ↔ ∀ c ∈ x.head?, p c = false := by
  rw [← dropWhile_eq_self]
  exact ⟨fun h => (List.dropWhile_suffix p).eq_of_length h, fun h => congrArg List.length h⟩

theorem keyDelim_charset {c : UInt8} : inCharset keyDelim c = false ↔ c ≠ 0 ∧ c ≠ 58 ∧ c ≠ 32 := by
  simp [inCharset, keyDelim]

theorem isspace_blank {c : UInt8} (h : isspace c = false) : c ≠ 32 := by
  rintro rfl
  cases h

theorem same_length_ne_nil {x y : Bytes} :
    (y ≠ [] ∧ y.length = x.length) ↔ (x ≠ [] ∧ y.length = x.length) := by
  refine and_congr_left fun h => ?_
  rw [ne_eq, ne_eq, ← List.length_eq_zero_iff, ← List.length_eq_zero_iff, h]

theorem trimmed_suffix (value : Bytes) : trimmed value <:+ value :=
  (List.dropWhile_suffix _).trans (List.dropWhile_suffix _)

theorem trimmed_whole_iff {value : Bytes} (hvalue : OneLine value) :
    (trimmed value).length = value.length ↔ ∀ c ∈ value.head?, isspace c = false ∧ c ≠ 58 := by
  have hself : (trimmed value).length = value.length ↔ trimmed value = value :=
    ⟨fun h => (trimmed_suffix value).eq_of_length h, fun h => congrArg List.length h⟩
  rw [hself, trimmed_eq_self_iff]
  refine forall_congr' fun c => forall_congr' fun hc => ?_
  rw [keyDelim_charset]
  refine ⟨fun h => ⟨h.2, h.1.2.1⟩, fun h => ⟨⟨?_, h.2, isspace_blank h.1⟩, h.1⟩⟩
  rintro rfl
  exact hvalue.ne_zero (List.mem_of_mem_head? hc)

theorem leftOf_whole_iff (hkey : KeyDelimiter keydelim) {value : Bytes} (hvalue : OneLine value) :
    leftOf keydelim value ≠ [] ∧ (leftOf keydelim value).length = value.length ↔
      ReadWhole keydelim value := by
  have hne : ([58] : Bytes) ≠ keyDelim := by decide
  rw [same_length_ne_nil, ReadWhole]
  refine and_congr_right fun _ => ?_
  obtain rfl | rfl := hkey
  · rw [leftOf_colon, dropWhile_length_iff]
    simp only [hne, false_implies, and_true]
  · rw [leftOf_keyDelim, trimmed_whole_iff hvalue]
    simp only [forall_const]

theorem dropWhile_blanks {p : UInt8 → Bool} (hp : p 32 = true) (value : Bytes) :
    value.dropWhile p = (value.dropWhile (· = 32)).dropWhile p := by
  induction value with
  | nil => rfl
  | cons c value ih =>
    by_cases hc : c = 32
    · subst hc
      rw [List.dropWhile_cons_of_pos hp, ih]
      rfl
    · rw [List.dropWhile_cons_of_neg (p := fun c => decide (c = 32)) (by simpa using hc)]

theorem trimmed_stripped_iff {value : Bytes} (hvalue : OneLine value) :
    (trimmed value).length = (value.dropWhile isspace).length ↔
      ∀ c ∈ (value.dropWhile (· = 32)).head?, c ≠ 58 := by
  have hkey := dropWhile_blanks (p := inCharset keyDelim) (by decide) value
  have hspace := dropWhile_blanks (p := isspace) (by decide) value
  rw [trimmed, hkey, hspace]
  have hsuffix : value.dropWhile (· = 32) <:+ value := List.dropWhile_suffix _
  have hblank : ∀ c ∈ (value.dropWhile (· = 32)).head?, decide (c = 32) = false := head_dropWhile _
  generalize value.dropWhile (· = 32) = w at hsuffix hblank ⊢
  cases w with
  | nil => simp
  | cons c w =>
    have hc : c ≠ 32 := of_decide_eq_false (hblank c rfl)
    have hzero : c ≠ 0 := by
      rintro rfl
      exact hvalue.ne_zero (hsuffix.subset List.mem_cons_self)
    by_cases hcolon : c = 58
    · -- the colon is skipped, but it is no white space
      have hlength := (trimmed_suffix w).length_le
      rw [hcolon, List.dropWhile_cons_of_pos (by decide),
        List.dropWhile_cons_of_neg (p := isspace) (by decide), List.length_cons, ← trimmed]
      refine ⟨fun h => ?_, fun h => absurd rfl (h 58 rfl)⟩
      omega
    · rw [List.dropWhile_cons_of_neg (p := inCharset keyDelim)
        (by rw [keyDelim_charset.2 ⟨hzero, hcolon, hc⟩]; decide)]
      simp [hcolon]

theorem leftOf_stripped_iff (hkey : KeyDelimiter keydelim) {value : Bytes} (hvalue : OneLine value) :
    leftOf keydelim value ≠ [] ∧ (leftOf keydelim value).length = (value.dropWhile isspace).length ↔
      ReadStripped keydelim value := by
  have hne : ([58] : Bytes) ≠ keyDelim := by decide
  rw [same_length_ne_nil, ReadStripped]
  refine and_congr_right fun _ => ?_
  obtain rfl | rfl := hkey
  · rw [leftOf_colon]
    simp only [hne, false_implies]
  · rw [leftOf_keyDelim, trimmed_stripped_iff hvalue]
    simp only [forall_const]

/-! ## Lookups -/

theorem lineAt_suffix {itemdelim : Bytes} : ∀ {fuel : Nat} {x : Bytes} {index : Nat} {line : Bytes × Nat},
    lineAt itemdelim fuel x index = some line → line.1 <:+ x
  | 0, x, index, line, h => nomatch h
  | fuel + 1, x, index, line, h => by
    unfold lineAt at h
    split at h
    · cases h
    · cases index with
      | zero =>
        cases h
        exact List.suffix_refl x
      | succ index => exact (lineAt_suffix h).trans (List.drop_suffix _ x)

theorem headersGetlen_span (b : ByteBuffer) (name itemdelim keydelim : Bytes) :
    headersGetlen b name itemdelim keydelim = (headersSpan b name itemdelim keydelim).map
      (Option.map fun s => (b.content.drop s.1).take s.2) := by
  rw [headersGetlen, headersSpan]
  cases headersFind b name itemdelim with
  | none => rfl
  | some i =>
    cases hat : headersAt b i itemdelim with
    | none => simp [hat]
    | some line =>
      obtain ⟨front, hcontent⟩ := lineAt_suffix hat
      have hdrop : ∀ n, b.content.drop (b.content.length - line.1.length + n) = line.1.drop n := by
        intro n
        rw [← hcontent, List.length_append, Nat.add_sub_cancel, ← List.drop_drop, List.drop_left]
      simp only [hat, Option.bind_some, valueIn]
      split
      · simp only [Option.map_some, hdrop]
      · rfl

/-- A lookup gives the value of the first line with the name exactly when the first line that has
the name, or has it as the compared part of its own, has both, and its value is read: whole, or
without the white space in front of it. -/
theorem header_lookup_iff (hb : b.content = fieldBlock ls) (name : Bytes)
    (hkey : KeyDelimiter keydelim) :
    (LooksUp id b ls name keydelim ↔
      ∀ l ∈ ls.find? (fun l => l.named name || l.found name),
        l.named name = true ∧ l.found name = true ∧ ReadWhole keydelim l.value) ∧
    (LooksUp (List.dropWhile isspace) b ls name keydelim ↔
      ∀ l ∈ ls.find? (fun l => l.named name || l.found name),
        l.named name = true ∧ l.found name = true ∧ ReadStripped keydelim l.value) := by
  refine ⟨?_, ?_⟩
  · have hid : ∀ v : Bytes, (id v).length ≤ v.length := fun v => Nat.le_refl _
    rw [looksUp_iff hb hkey hid]
    refine forall_congr' fun l => forall_congr' fun _ => and_congr_right fun _ =>
      and_congr_right fun _ => leftOf_whole_iff hkey l.value_ok
  · rw [looksUp_iff hb hkey (fun v => (List.dropWhile_suffix _).length_le)]
    refine forall_congr' fun l => forall_congr' fun _ => and_congr_right fun _ =>
      and_congr_right fun _ => leftOf_stripped_iff hkey l.value_ok

/-- `a: v` -/
theorem header_lookup_one_line :
    LooksUp id ⟨[97, 58, 32, 118, 13, 10], 0, 6, Nat.le_refl 6⟩
      [⟨[97], [118], crlf, by decide, by decide, Or.inl rfl⟩] [65] [58] :=
  ((header_lookup_iff (by decide) [65] (Or.inl rfl)).1).2 (by decide)

/-- `a: ` without a value: white space is skipped past the end of the line, and the length is
negative. -/
theorem empty_value_underflows :
    ¬ ∀ (b : ByteBuffer) (ls : List FieldLine) (name keydelim : Bytes), b.content = fieldBlock ls →
      KeyDelimiter keydelim → LooksUp (List.dropWhile isspace) b ls name keydelim := by
  intro h
  have hlookup := h ⟨[97, 58, 32, 13, 10], 0, 5, Nat.le_refl 5⟩
    [⟨[97], [], crlf, by decide, by decide, Or.inl rfl⟩] [97] [58] (by decide) (Or.inl rfl)
  have hspan := hlookup.first [] _ [] rfl (fun g hg => absurd hg List.not_mem_nil) (by decide)
  exact absurd hspan (by decide)

end QjsNet
