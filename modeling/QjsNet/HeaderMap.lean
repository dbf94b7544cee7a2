import Mathlib.Data.List.Nodup
import QjsNet.HeaderBlock

/- Setting and removing headers (`headers_set`, `headers_unsetb`).

   `headers_unsetb` takes the number of a line for a position in bytes. In front of the
   first line both are 0. For any other line it cuts a piece out of the line around that
   position, up to the end of it (`headersUnsetb_content`), and this is the piece it should
   have cut only when the header is the second one and its line is the first line without its
   first character (`unset_iff`). -/
namespace QjsNet

variable {name value : Bytes} {hs pre post : List Header} {h t : Header} {b : ByteBuffer}
  {heap : Nat → UInt8}

/-- The block without a header, when it is there. -/
def without (name : Bytes) (hs : List Header) : List Header := hs.filter fun h => !h.named name

/-- No two headers have the same name, in whatever case. -/
def Distinct (hs : List Header) : Prop := (hs.map fun h => h.name.map tolower).Nodup

instance (hs : List Header) : Decidable (Distinct hs) := inferInstanceAs (Decidable (List.Nodup _))

/-! ## The lines of a block are determined -/

theorem headersNext_le (x delim : Bytes) : headersNext x delim ≤ x.length := by
  unfold headersNext scanPast scanNoncharsetnskip scanCharsetnskip
  have hfirst := (List.takeWhile_sublist (!inCharset delim ·) (l := x)).length_le
  simp only
  split
  · have hsecond := (List.takeWhile_sublist (inCharset delim)
      (l := x.drop (x.takeWhile (!inCharset delim ·)).length)).length_le
    rw [List.length_drop] at hsecond
    omega
  · exact hfirst

/-- From any position of a line up to its end there is one end of a line. -/
theorem pieces_line_drop (h : Header) {off : Nat} (hoff : off < (h.line crlf).length) (rest : Bytes) :
    Lines.pieces isNewline ((h.line crlf).drop off ++ rest)
      = (h.line crlf).drop off :: Lines.pieces isNewline rest := by
  have hline : h.line crlf = (h.text ++ [13]) ++ [10] := by
    rw [h.line_eq, List.append_assoc]
    rfl
  have hfree : ∀ c ∈ (h.text ++ [13]).drop off, isNewline c = false := by
    intro c hc
    rcases List.mem_append.1 (List.mem_of_mem_drop hc) with hc | hc
    · refine decide_eq_false fun heq => ?_
      exact absurd (h.text_oneLine c hc) (heq ▸ by decide)
    · exact List.mem_singleton.1 hc ▸ rfl
  rw [hline, List.length_append, List.length_singleton] at hoff
  rw [hline, List.drop_append_of_le_length (Nat.le_of_lt_succ hoff), List.append_assoc]
  exact Lines.pieces_line hfree rfl

theorem pieces_block_append (hs : List Header) (rest : Bytes) :
    Lines.pieces isNewline (block crlf hs ++ rest)
      = hs.map (Header.line crlf) ++ Lines.pieces isNewline rest := by
  induction hs with
  | nil => rfl
  | cons h hs ih =>
    have hfirst := pieces_line_drop h (List.length_pos_of_ne_nil (line_ne_nil crlf h))
      (block crlf hs ++ rest)
    rw [List.drop_zero] at hfirst
    rw [block_cons, List.append_assoc, hfirst, ih]
    rfl

theorem pieces_block (hs : List Header) :
    Lines.pieces isNewline (block crlf hs) = hs.map (Header.line crlf) := by
  have hall := pieces_block_append hs []
  rw [List.append_nil] at hall
  exact hall.trans (List.append_nil _)

theorem line_name (h : Header) : h.name = (h.line crlf).take (headersNamelen (h.line crlf)) := by
  have hlength : headersNamelen (h.line crlf) = h.name.length := headersNamelen_append h.name_ok _
  rw [hlength, Header.line, headerLine, List.take_left]

theorem five_le_length (h : Header) : 5 ≤ (h.line crlf).length := by
  have hname := List.length_pos_of_ne_nil h.name_ok.1
  have hend : crlf.length = 2 := rfl
  rw [Header.line, headerLine_length]
  omega

theorem length_block_ge (hs : List Header) : 5 * hs.length ≤ (block crlf hs).length := by
  induction hs with
  | nil => exact Nat.le_refl _
  | cons h hs ih =>
    have hfirst := five_le_length h
    rw [block_cons, List.length_append, List.length_cons]
    omega

/-! ## What is cut out -/

theorem headersUnsetb_none (hfind : headersFindb b name crlf = none) :
    (headersUnsetb b name crlf).1 = b := by
  rw [headersUnsetb, hfind]

theorem headersUnsetb_some {i : Nat} (hfind : headersFindb b name crlf = some i)
    (hi : i ≤ b.content.length) : (headersUnsetb b name crlf).1.content
      = b.content.take i ++ b.content.drop (i + headersNext (b.content.drop i) crlf) := by
  have hnext := headersNext_le (b.content.drop i) crlf
  have hlength := length_content b
  rw [List.length_drop] at hnext
  have htake : b.content.take i = b.mem.take i := by
    rw [ByteBuffer.content, List.take_take, Nat.min_eq_left (by omega)]
  have hkept : (b.mem.take i
      ++ b.content.drop (i + headersNext (b.content.drop i) crlf)).length
        = b.write - headersNext (b.content.drop i) crlf := by
    rw [List.length_append, List.length_drop, ← htake, List.length_take]
    omega
  rw [htake, headersUnsetb, hfind]
  simp only [endAt_content, overwrite]
  exact List.take_left' hkept

/-- The number of a line, taken for a position: the line around it, and the scan for the next one.
-/
theorem line_around (pre : List Header) (t : Header) (post : List Header) :
    ∃ before h after off, pre ++ t :: post = before ++ h :: after ∧
      pre.length = (block crlf before).length + off ∧ off < (h.line crlf).length ∧
      (block crlf (pre ++ t :: post)).take pre.length = block crlf before ++ (h.line crlf).take off ∧
      (block crlf (pre ++ t :: post)).drop pre.length = (h.line crlf).drop off ++ block crlf after ∧
      headersNext ((block crlf (pre ++ t :: post)).drop pre.length) crlf
        = ((h.line crlf).drop off).length := by
  have hlines := length_block_ge (pre ++ t :: post)
  rw [List.length_append, List.length_cons] at hlines
  obtain ⟨before, h, after, off, hsplit, hpos, hoff⟩ := @block_position crlf (pre ++ t :: post)
    pre.length (by omega)
  have hblock : block crlf (pre ++ t :: post) = (block crlf before ++ (h.line crlf).take off)
      ++ ((h.line crlf).drop off ++ block crlf after) := by
    rw [hsplit, block_append, block_cons, List.append_assoc, ← List.append_assoc (List.take _ _),
      List.take_append_drop]
  have hat : pre.length = (block crlf before ++ (h.line crlf).take off).length := by
    rw [List.length_append, List.length_take, Nat.min_eq_left hoff.le, hpos]
  have hdrop : (block crlf (pre ++ t :: post)).drop pre.length
      = (h.line crlf).drop off ++ block crlf after := by rw [hblock, hat, List.drop_left]
  refine ⟨before, h, after, off, hsplit, hpos, hoff, by rw [hblock, hat, List.take_left], hdrop, ?_⟩
  rw [hdrop, headersNext_inside lineEnd_crlf h hoff (block_noEnd crlf after), List.length_drop]

/-- The piece that is cut out ends with the line around the position. -/
theorem headersUnsetb_content (hb : b.content = block crlf (pre ++ t :: post))
    (hname : (0 : UInt8) ∉ name) (ht : t.named name = true) (hpre : ∀ g ∈ pre, g.named name = false) :
    ∃ before h after off, pre ++ t :: post = before ++ h :: after ∧
      pre.length = (block crlf before).length + off ∧ off < (h.line crlf).length ∧
      (headersUnsetb b name crlf).1.content
        = block crlf before ++ ((h.line crlf).take off ++ block crlf after) := by
  have hfind : headersFindb b name crlf = some pre.length := by
    rw [headersFindb_block lineEnd_crlf hb hname, Matching.findIdx?_first hpre ht]
  obtain ⟨before, h, after, off, hsplit, hpos, hoff, htake, hdrop, hnext⟩ := line_around pre t post
  rw [← hb] at htake hdrop hnext
  refine ⟨before, h, after, off, hsplit, hpos, hoff, ?_⟩
  have hle : pre.length ≤ b.content.length := by
    have hlines := length_block_ge (pre ++ t :: post)
    rw [List.length_append, List.length_cons] at hlines
    rw [hb]
    omega
  rw [headersUnsetb_some hfind hle, htake, ← List.drop_drop, hnext, hdrop, List.drop_left,
    List.append_assoc]

/-! ## When it is the line of the header -/

/-- The header with the name, if there is one, is the first header, or the second one where its line
is the first line without the first character. -/
def UnsetsAt (hs : List Header) (name : Bytes) : Prop :=
  ∀ pre t post, hs = pre ++ t :: post → t.named name = true → (∀ g ∈ pre, g.named name = false) →
    pre = [] ∨ ∃ first c, pre = [first] ∧ first.line crlf = c :: t.line crlf

theorem Distinct.others (hdistinct : Distinct (pre ++ t :: post)) :
    ∀ g ∈ pre ++ post, g.name.map tolower ≠ t.name.map tolower := by
  intro g hg heq
  rw [Distinct, List.map_append, List.map_cons, List.nodup_middle, ← List.map_append] at hdistinct
  exact (List.nodup_cons.1 hdistinct).1 (heq ▸ List.mem_map_of_mem hg)

theorem Distinct.line_ne (hdistinct : Distinct (pre ++ t :: post)) :
    ∀ g ∈ pre ++ post, g.line crlf ≠ t.line crlf := by
  intro g hg heq
  have hname : g.name = t.name := by rw [line_name g, line_name t, heq]
  exact hdistinct.others g hg (congrArg _ hname)

theorem without_eq (hdistinct : Distinct (pre ++ t :: post)) (ht : t.named name = true) :
    without name (pre ++ t :: post) = pre ++ post := by
  have hother : ∀ g ∈ pre ++ post, (!g.named name) = true := by
    intro g hg
    rw [Bool.not_eq_true', Bool.eq_false_iff]
    intro hg'
    exact hdistinct.others g hg ((strcasecmp_iff.1 hg').trans (strcasecmp_iff.1 ht).symm)
  rw [without, List.filter_append, List.filter_cons_of_neg (by simp [ht]), ← List.filter_append,
    List.filter_eq_self.2 hother]

theorem without_none (hnone : hs.findIdx? (Header.named name) = none) : without name hs = hs := by
  rw [without, List.filter_eq_self]
  intro g hg
  rw [List.findIdx?_eq_none_iff.1 hnone g hg]
  rfl

/-- The first two lines: a header at the end of the first one's line goes as it should. -/
theorem unset_of_unsetsAt (hb : b.content = block crlf (pre ++ t :: post))
    (hname : (0 : UInt8) ∉ name) (ht : t.named name = true) (hpre : ∀ g ∈ pre, g.named name = false)
    (hat : pre = [] ∨ ∃ first c, pre = [first] ∧ first.line crlf = c :: t.line crlf) :
    (headersUnsetb b name crlf).1.content = block crlf (pre ++ post) := by
  obtain ⟨before, h, after, off, hsplit, hpos, hoff, hcontent⟩ :=
    headersUnsetb_content hb hname ht hpre
  have hlines := length_block_ge before
  have hbefore : before = [] := by
    refine List.length_eq_zero_iff.1 ?_
    rcases hat with rfl | ⟨first, c, rfl, -⟩
    · rw [List.length_nil] at hpos
      omega
    · rw [List.length_singleton] at hpos
      omega
  obtain rfl := hbefore
  have hoff' : pre.length = off := hpos.trans (Nat.zero_add off)
  rw [hcontent, ← hoff']
  rcases hat with rfl | ⟨first, c, rfl, hline⟩
  · obtain ⟨rfl, rfl⟩ := List.cons.inj hsplit
    rfl
  · obtain ⟨rfl, rfl⟩ := List.cons.inj hsplit
    rw [List.singleton_append, block_cons, hline]
    exact congrArg (List.cons c) (block_cons crlf t post)

theorem Distinct.of_append {before hs : List Header} (h : Distinct (before ++ hs)) : Distinct hs := by
  rw [Distinct, List.map_append] at h
  exact (List.nodup_append.1 h).2.1

/-- The lines up to a header and behind it are the rest of a line and the same lines without the
header's only when the header comes first: it is what is left of the line. -/
theorem line_of_rest {rest post : List Header} {t h : Header} {off : Nat}
    (hdistinct : Distinct (rest ++ t :: post)) (hoff : off < (h.line crlf).length)
    (hrest : block crlf (rest ++ t :: post) = (h.line crlf).drop off ++ block crlf (rest ++ post)) :
    rest = [] ∧ t.line crlf = (h.line crlf).drop off := by
  have hlines := congrArg (Lines.pieces isNewline) hrest
  rw [pieces_line_drop h hoff, pieces_block, pieces_block] at hlines
  cases rest with
  | nil => exact ⟨rfl, (List.cons.inj hlines).1⟩
  | cons p rest =>
    -- the line behind the next one would be the next one
    rw [List.cons_append, List.map_cons] at hlines
    obtain ⟨-, htail⟩ := List.cons.inj hlines
    cases hnext : rest ++ t :: post with
    | nil => simp at hnext
    | cons q qs =>
      rw [hnext] at htail
      have hpq : Distinct ([] ++ p :: q :: qs) := by
        rw [← hnext]
        exact hdistinct
      exact absurd (List.cons.inj htail).1 (hpq.line_ne q (by simp))

/-- Any other cut leaves something else than the other lines. -/
theorem unsetsAt_of_unset (hb : b.content = block crlf (pre ++ t :: post))
    (hdistinct : Distinct (pre ++ t :: post)) (hname : (0 : UInt8) ∉ name)
    (ht : t.named name = true) (hpre : ∀ g ∈ pre, g.named name = false)
    (hunset : (headersUnsetb b name crlf).1.content = block crlf (pre ++ post)) :
    pre = [] ∨ ∃ first c, pre = [first] ∧ first.line crlf = c :: t.line crlf := by
  obtain ⟨before, h, after, off, hsplit, hpos, hoff, hcontent⟩ :=
    headersUnsetb_content hb hname ht hpre
  have hlines := length_block_ge before
  rcases List.append_eq_append_iff.1 hsplit with ⟨rest, hbefore, -⟩ | ⟨rest, hpre', hafter⟩
  · -- the line that is cut is not in front of the header, so no line is
    rw [hbefore, List.length_append] at hlines
    rw [hbefore] at hpos
    exact Or.inl (List.length_eq_zero_iff.1 (by omega))
  · cases rest with
    | nil =>
      rw [List.append_nil] at hpre'
      rw [hpre'] at hpos
      exact Or.inl (hpre'.trans (List.length_eq_zero_iff.1 (by omega)))
    | cons g rest =>
      rw [List.cons_append] at hafter
      obtain ⟨rfl, rfl⟩ := List.cons.inj hafter
      subst hpre'
      -- what stays of the line and the lines behind it are the lines behind it but the header's
      have hrest : block crlf (rest ++ t :: post)
          = (h.line crlf).drop off ++ block crlf (rest ++ post) := by
        refine @List.append_cancel_left _ ((h.line crlf).take off) _ _ ?_
        rw [← List.append_assoc, List.take_append_drop]
        refine @List.append_cancel_left _ (block crlf before) _ _ ?_
        rw [← hcontent, hunset, List.append_assoc, List.cons_append, block_append, block_cons]
      rw [List.append_assoc, List.cons_append] at hdistinct
      obtain ⟨rfl, hline⟩ :=
        line_of_rest (@Distinct.of_append [h] _ hdistinct.of_append) hoff hrest
      rw [List.length_append, List.length_singleton] at hpos
      obtain rfl : before = [] := List.length_eq_zero_iff.1 (by omega)
      obtain rfl : 1 = off := hpos.trans (Nat.zero_add off)
      obtain ⟨c, cs, hcs⟩ := List.exists_cons_of_ne_nil (line_ne_nil crlf h)
      rw [hcs] at hline
      exact Or.inr ⟨h, c, rfl, hcs.trans (congrArg (List.cons c) hline.symm)⟩

/-- Removing a header leaves the other lines exactly when it is in one of these two places. -/
theorem unset_iff (hb : b.content = block crlf hs) (hdistinct : Distinct hs)
    (hname : (0 : UInt8) ∉ name) :
    (headersUnsetb b name crlf).1.content = block crlf (without name hs) ↔ UnsetsAt hs name := by
  cases hidx : hs.findIdx? (Header.named name) with
  | none =>
    have hfind := headersFindb_block lineEnd_crlf hb hname
    rw [headersUnsetb_none (hfind.trans hidx), without_none hidx]
    refine iff_of_true hb ?_
    rintro pre t post rfl ht -
    exact absurd ht (Bool.eq_false_iff.1 (List.findIdx?_eq_none_iff.1 hidx t (by simp)))
  | some i =>
    obtain ⟨pre, t, post, rfl, -, ht, hpre⟩ := Matching.findIdx?_split hidx
    rw [without_eq hdistinct ht]
    refine ⟨?_, ?_⟩
    · intro hunset pre' t' post' hsplit ht' hpre'
      obtain ⟨rfl, rfl⟩ := Matching.first_unique hsplit hpre ht hpre' ht'
      exact unsetsAt_of_unset hb hdistinct hname ht hpre hunset
    · intro hat
      exact unset_of_unsetsAt hb hname ht hpre (hat pre t post rfl ht hpre)

/-! ## Setting a header -/

theorem headersSet_content (heap : Nat → UInt8) (b : ByteBuffer) (name value : Bytes) :
    ∃ b', headersSet heap b name value crlf = some b' ∧
      b'.content = (if b.size = 0 then b else (headersUnsetb b (cString name) crlf).1).content
        ++ headerLine crlf (cString name) (cString value) := by
  obtain ⟨b', hsome, hwrote⟩ := @writeLine_wrote crlf heap
    (if b.size = 0 then b else (headersUnsetb b (cString name) crlf).1) (cString name)
    (cString value) (Nat.le_refl 2)
  exact ⟨b', hsome, by rw [hwrote.content, bufferGrow_content]⟩

theorem headersSet_block (heap : Nat → UInt8) (hb : b.content = block crlf hs)
    (hunset : (headersUnsetb b name crlf).1.content = block crlf (without name hs))
    (hname : HeaderName name) (hvalue : OneLine value) :
    ∃ b', headersSet heap b name value crlf = some b' ∧
      b'.content = block crlf (without name hs ++ [⟨name, value, hname, hvalue⟩]) := by
  obtain ⟨b', hsome, hcontent⟩ := headersSet_content heap b name value
  refine ⟨b', hsome, ?_⟩
  rw [hcontent, cString_of_not_mem hname.ne_zero, cString_of_not_mem hvalue.ne_zero, block_append]
  have hkept : (if b.size = 0 then b else (headersUnsetb b name crlf).1).content
      = block crlf (without name hs) := by
    split
    · next hsize =>
      -- no memory, so no header
      have hwrite := b.write_le
      have hlines := length_block_ge hs
      rw [← hb, length_content] at hlines
      rw [ByteBuffer.size] at hsize
      obtain rfl : hs = [] := List.length_eq_zero_iff.1 (by omega)
      exact hb
    · exact hunset
  rw [hkept]
  simp [block, Header.line]

/-! ## The laws of the map -/

/-- What the map should do with a name and a value: setting the header changes the result of a
lookup for the name in any spelling and for no other name, and removing it leaves the other lines.
-/
structure HeaderMapLaws (heap : Nat → UInt8) (b : ByteBuffer) (hs : List Header)
    (name value : Bytes) : Prop where
  set : ∃ b', headersSet heap b name value crlf = some b' ∧
    (∀ spelling, strcasecmp spelling name = true →
      headersGetlen b' spelling crlf keyDelim = some (some value)) ∧
    ∀ other, (0 : UInt8) ∉ other → strcasecmp other name = false →
      headersGetlen b' other crlf keyDelim = headersGetlen b other crlf keyDelim
  unset : (headersUnsetb b name crlf).1.content = block crlf (without name hs)

/-- Every spelling of a name is a C string. -/
theorem spelling_ne_zero {spelling : Bytes} (hname : HeaderName name)
    (h : strcasecmp spelling name = true) : (0 : UInt8) ∉ spelling := by
  intro hmem
  exact hname.ne_zero (mem_of_strcasecmp (by decide) (by decide) h hmem)

theorem find?_without {other : Bytes} (hother : strcasecmp other name = false) :
    (without name hs).find? (Header.named other) = hs.find? (Header.named other) := by
  rw [without, List.find?_filter]
  congr 1
  funext h
  cases hnamed : h.named other with
  | false => simp
  | true =>
    have hname : h.named name = false := by
      rw [Bool.eq_false_iff] at hother ⊢
      exact fun h' => hother (strcasecmp_iff.2 ((strcasecmp_iff.1 hnamed).symm.trans (strcasecmp_iff.1 h')))
    simp [hname]

theorem find?_without_self {spelling : Bytes} (h : strcasecmp spelling name = true) :
    (without name hs).find? (Header.named spelling) = none := by
  rw [List.find?_eq_none]
  intro g hg hnamed
  have hkept := (List.mem_filter.1 hg).2
  rw [Bool.not_eq_true', Bool.eq_false_iff] at hkept
  exact hkept (strcasecmp_iff.2 ((strcasecmp_iff.1 hnamed).trans (strcasecmp_iff.1 h)))

theorem lookup_set_self {spelling : Bytes} (hname : HeaderName name) (hvalue : OneLine value)
    (hcontent : b.content = block crlf (without name hs ++ [⟨name, value, hname, hvalue⟩]))
    (hspelling : strcasecmp spelling name = true) :
    headersGetlen b spelling crlf keyDelim = (⟨name, value, hname, hvalue⟩ : Header).found := by
  have hnamed : Header.named spelling ⟨name, value, hname, hvalue⟩ = true :=
    strcasecmp_iff.2 (strcasecmp_iff.1 hspelling).symm
  rw [headersGetlen_block lineEnd_crlf hcontent, cString_of_not_mem (spelling_ne_zero hname hspelling),
    List.find?_append, find?_without_self hspelling, Option.none_or, List.find?_singleton, hnamed]
  rfl

theorem lookup_set_other {b' : ByteBuffer} {other : Bytes} (hname : HeaderName name)
    (hvalue : OneLine value) (hb : b.content = block crlf hs)
    (hcontent : b'.content = block crlf (without name hs ++ [⟨name, value, hname, hvalue⟩]))
    (hzero : (0 : UInt8) ∉ other) (hother : strcasecmp other name = false) :
    headersGetlen b' other crlf keyDelim = headersGetlen b other crlf keyDelim := by
  have hnamed : Header.named other ⟨name, value, hname, hvalue⟩ = false := by
    rw [Bool.eq_false_iff] at hother ⊢
    exact fun h => hother (strcasecmp_iff.2 (strcasecmp_iff.1 h).symm)
  rw [headersGetlen_block lineEnd_crlf hcontent, headersGetlen_block lineEnd_crlf hb,
    cString_of_not_mem hzero, List.find?_append, find?_without hother, List.find?_singleton, hnamed]
  exact congrArg (Option.elim · (some none) Header.found) (Option.or_none)

/-- Of the characters a value may begin with, the lookup skips the vertical tab and the form
feed. -/
theorem skipped_iff {c : UInt8} (hline : inCharset crlf c = false) (h32 : c ≠ 32) (h9 : c ≠ 9)
    (h58 : c ≠ 58) : inCharset keyDelim c = false ∧ isspace c = false ↔ c ≠ 11 ∧ c ≠ 12 := by
  simp [inCharset, isspace, keyDelim, crlf, ← UInt8.toNat_inj, UInt8.le_iff_toNat_le] at *
  omega

theorem unskipped_iff (hvalue : OneLine value) (hplain : ∀ c ∈ value.head?, c ≠ 32 ∧ c ≠ 9 ∧ c ≠ 58) :
    Unskipped value ↔ ∀ c ∈ value.head?, c ≠ 11 ∧ c ≠ 12 := by
  refine forall₂_congr fun c hc => ?_
  obtain ⟨h32, h9, h58⟩ := hplain c hc
  exact skipped_iff (hvalue c (List.mem_of_head? hc)) h32 h9 h58

/-- **When the laws hold.** The header is one that `headers_unsetb` cuts out right, and the lookup
does not skip the beginning of the value. -/
theorem header_map_laws_iff (heap : Nat → UInt8) (hb : b.content = block crlf hs)
    (hdistinct : Distinct hs) (hname : HeaderName name) (hvalue : OneLine value)
    (hplain : PlainValue value) :
    HeaderMapLaws heap b hs name value ↔
      UnsetsAt hs name ∧ ∀ c ∈ value.head?, c ≠ 11 ∧ c ≠ 12 := by
  have hfound := Header.found_iff ⟨name, value, hname, hvalue⟩
  rw [← unset_iff hb hdistinct hname.ne_zero, ← unskipped_iff hvalue hplain.2]
  refine ⟨?_, ?_⟩
  · intro hlaws
    obtain ⟨b', hset, hlookup, -⟩ := hlaws.set
    obtain ⟨b'', hset', hcontent⟩ := headersSet_block heap hb hlaws.unset hname hvalue
    obtain rfl : b' = b'' := Option.some.inj (hset.symm.trans hset')
    have hself := lookup_set_self hname hvalue hcontent (strcasecmp_iff.2 rfl)
    exact ⟨hlaws.unset, (hfound.1 (hself.symm.trans (hlookup name (strcasecmp_iff.2 rfl)))).2⟩
  · intro h
    obtain ⟨hunset, hskip⟩ := h
    obtain ⟨b', hset, hcontent⟩ := headersSet_block heap hb hunset hname hvalue
    refine ⟨⟨b', hset, ?_, ?_⟩, hunset⟩
    · intro spelling hspelling
      exact (lookup_set_self hname hvalue hcontent hspelling).trans (hfound.2 ⟨hplain.1, hskip⟩)
    · intro other hzero hother
      exact lookup_set_other hname hvalue hb hcontent hzero hother

/-- `A: 1` and `B: 2` -/
def twoHeaders : List Header := [⟨[65], [49], by decide, by decide⟩, ⟨[66], [50], by decide, by decide⟩]

def twoHeadersBuffer : ByteBuffer := ⟨block crlf twoHeaders, 0, 12, by decide⟩

theorem twoHeadersBuffer_content : twoHeadersBuffer.content = block crlf twoHeaders := by decide

/-- Setting and removing the first header. -/
theorem first_header_laws : HeaderMapLaws (fun _ => 0) twoHeadersBuffer twoHeaders [97] [51] := by
  refine (header_map_laws_iff (fun _ => 0) twoHeadersBuffer_content (by decide) (by decide) (by decide)
    (by decide)).2 ⟨?_, by decide⟩
  intro pre t post hsplit _ hpre
  cases pre with
  | nil => exact Or.inl rfl
  | cons g pre =>
    obtain ⟨rfl, -⟩ := List.cons.inj hsplit
    exact absurd (hpre _ List.mem_cons_self) (by decide)

/-- Removing `B` leaves `AB: 2`. -/
theorem second_header_unset :
    (headersUnsetb twoHeadersBuffer [66] crlf).1.content = [65, 66, 58, 32, 50, 13, 10] ∧
      block crlf (without [66] twoHeaders) = [65, 58, 32, 49, 13, 10] ∧
      ¬ HeaderMapLaws (fun _ => 0) twoHeadersBuffer twoHeaders [66] [51] := by
  refine ⟨by decide, by decide, ?_⟩
  intro hlaws
  exact absurd hlaws.unset (by decide)

end QjsNet
