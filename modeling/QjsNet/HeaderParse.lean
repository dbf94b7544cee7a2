import QjsNet.HeaderLookup

/- Parsing headers into an object (`headers_object` in `headers.c`): what it reads, and
   whether a lookup agrees with it.

   Behind the colon one character of white space is skipped. Where nothing is behind the
   colon, that is the end of the line, and the length of the value is negative, or it is
   behind the block. `headers_object` matches names as they are, `headers_getlen` in any case
   and only up to the first character that does not belong to a name.

   Correspondence (C ↔ Lean):
     `x[n]` and `len - n` of `headers_object` ↔ `objectSpan` -/
namespace QjsNet

/-- Where the value is in a line of length `len` at `x`, and how long it is, if the line has a name.
`none` is a length that has wrapped around, or a read behind the block. -/
def objectSpan (x : Bytes) (len : Nat) : Option (Option (Nat × Nat)) :=
  let n := byteChr (x.take len) 58
  if n < len then
    let m := if x[n]? = some 58 then n + 1 else n
    match x[m]? with
    | none => none
    | some c =>
      let m := if isspace c then m + 1 else m
      if (x.take n).isEmpty then some none else if m ≤ len then some (some (m, len - m)) else none
  else some none

/-- The value of a line is in the line. -/
def LineInside (x : Bytes) (len : Nat) : Prop :=
  ∃ r, objectSpan x len = some r ∧ ∀ s ∈ r, s.1 + s.2 ≤ len

/-- The loop of `headers_object`. Each turn takes at least one byte. -/
def linesInside : Nat → Bytes → Prop
  | 0, _ => True
  | fuel + 1, x =>
    x = [] ∨ LineInside x (byteChrs x crlf) ∧ linesInside fuel (x.drop (byteChrs x crlf + 1))

/-- Nothing outside of the block is read, and every value is in its line. -/
def ReadsInside (x : Bytes) : Prop := linesInside x.length x

/-- Nothing is behind the first colon. -/
def ColonLast (line : Bytes) : Prop := ∃ name, line = name ++ [58] ∧ (58 : UInt8) ∉ name

/-- In no line but a colon alone, with an end behind it, the first colon is the last character. -/
def ColonsInside (lines : List Bytes) : Prop :=
  ∀ pre line post, lines = pre ++ line :: post → ColonLast line → line = [58] ∧ post ≠ []

/-- The object maps the names to what a lookup returns. -/
def ObjectAgrees (b : ByteBuffer) (ls : List FieldLine) (keydelim : Bytes) : Prop :=
  ∃ obj, headersObject b.content = some obj ∧ ∀ l ∈ ls, ∃ value, obj.get l.name = some value ∧
    headersGetlen b l.name crlf keydelim = some (some value)

variable {line rest name keydelim : Bytes} {l : FieldLine} {ls pre post : List FieldLine}
  {b : ByteBuffer} {obj : JSObject}

/-! ## What is read -/

theorem objectSpan_noColon (h : (58 : UInt8) ∉ line) (rest : Bytes) :
    objectSpan (line ++ rest) line.length = some none := by
  have hn : byteChr line 58 = line.length :=
    congrArg List.length (List.takeWhile_eq_self_iff.2 (ne_colon h))
  simp [objectSpan, hn]

theorem objectSpan_colon (h : (58 : UInt8) ∉ name) (value rest : Bytes) :
    objectSpan (name ++ 58 :: value ++ rest) (name ++ 58 :: value).length =
      (value ++ rest).head?.bind fun c =>
        if name.isEmpty then some none
        else if (if isspace c then 1 else 0) ≤ value.length then
          some (some (name.length + 1 + (if isspace c then 1 else 0),
            value.length - (if isspace c then 1 else 0)))
        else none := by
  have hlength : (name ++ 58 :: value).length = name.length + 1 + value.length := by
    rw [List.length_append, List.length_cons]
    omega
  have hx : name ++ 58 :: value ++ rest = name ++ 58 :: (value ++ rest) := by
    rw [List.append_assoc, List.cons_append]
  have hn : byteChr ((name ++ 58 :: value ++ rest).take (name.length + 1 + value.length)) 58
      = name.length := by
    rw [← hlength, List.take_left, byteChr_append_cons h]
  have hcolon : (name ++ 58 :: value ++ rest)[name.length]? = some 58 := by
    rw [hx, List.getElem?_append_right (Nat.le_refl _), Nat.sub_self]
    rfl
  have hafter : (name ++ 58 :: value ++ rest)[name.length + 1]? = (value ++ rest).head? := by
    rw [hx, List.getElem?_append_right (Nat.le_add_right _ _), Nat.add_sub_cancel_left,
      List.head?_eq_getElem?]
    rfl
  have hname : (name ++ 58 :: value ++ rest).take name.length = name := by
    rw [hx, List.take_left]
  have hlt : name.length < name.length + 1 + value.length := by omega
  have hm (k : Nat) : name.length + 1 + k ≤ name.length + 1 + value.length ↔ k ≤ value.length :=
    Nat.add_le_add_iff_left
  have hleft (k : Nat) : name.length + 1 + value.length - (name.length + 1 + k)
      = value.length - k := Nat.add_sub_add_left ..
  unfold objectSpan
  simp only [hlength, hn, if_pos hlt, hname, hcolon, if_true, hafter]
  cases (value ++ rest).head? with
  | none => rfl
  | some c =>
    have hskip : (if isspace c then name.length + 1 + 1 else name.length + 1) =
        name.length + 1 + (if isspace c then 1 else 0) := by split <;> rfl
    simp only [Option.bind_some, hskip, hm, hleft]

/-- What a line defines is at its span. -/
theorem headersObjectLine_span {x : Bytes} {len : Nat} {r : Option (Nat × Nat)}
    (h : objectSpan x len = some r) (obj : JSObject) :
    headersObjectLine x len obj = some (r.elim obj fun s =>
      obj.defineProperty (cString (x.take (byteChr (x.take len) 58))) ((x.drop s.1).take s.2)) := by
  unfold objectSpan at h
  unfold headersObjectLine
  dsimp only at h ⊢
  split at h
  · next hlt =>
    rw [if_pos hlt]
    generalize (if x[byteChr (x.take len) 58]? = some 58 then byteChr (x.take len) 58 + 1
      else byteChr (x.take len) 58) = m at h ⊢
    cases hc : x[m]? with
    | none =>
      rw [hc] at h
      cases h
    | some c =>
      rw [hc] at h
      dsimp only at h ⊢
      split at h
      · next hempty =>
        rw [if_pos hempty]
        cases h
        rfl
      · next hempty =>
        rw [if_neg hempty]
        generalize (if isspace c = true then m + 1 else m) = k at h ⊢
        split at h
        · next hle =>
          cases h
          exact if_pos hle
        · cases h
  · next hlt =>
    rw [if_neg hlt]
    cases h
    rfl

theorem colonLast_iff (h : (58 : UInt8) ∉ name) {value : Bytes} :
    ColonLast (name ++ 58 :: value) ↔ value = [] := by
  refine ⟨?_, ?_⟩
  · rintro ⟨name', heq, hname'⟩
    have hlength : name.length = name'.length := by
      rw [← byteChr_append_cons h value, heq, byteChr_append_cons hname' []]
    exact (List.cons.inj (List.append_inj heq hlength).2).2
  · rintro rfl
    exact ⟨name, rfl, h⟩

/-- A line is read inside the block unless its first colon is its last character; a colon alone
is, when the line has an end. -/
theorem lineInside_iff (hend : ∀ c ∈ rest.head?, isEol c = true) :
    LineInside (line ++ rest) line.length ↔ (ColonLast line → line = [58] ∧ rest ≠ []) := by
  by_cases hmem : (58 : UInt8) ∈ line
  · obtain ⟨name, value, rfl, hname⟩ := List.eq_append_cons_of_mem hmem
    rw [LineInside, objectSpan_colon hname, colonLast_iff hname]
    cases value with
    | nil =>
      cases rest with
      | nil => simp
      | cons c rest =>
        have hspace : isspace c = true := isEol_isspace (hend c rfl)
        cases name with
        | nil => simp
        | cons d name => simp [hspace]
    | cons c value =>
      cases name with
      | nil => simp
      | cons d name =>
        refine iff_of_true ?_ fun h => nomatch h
        rw [List.cons_append, List.head?_cons, Option.bind_some]
        have hlength : (c :: value).length = value.length + 1 := rfl
        have hle : (if isspace c then 1 else 0) ≤ (c :: value).length := by
          split <;> omega
        refine ⟨_, by rw [List.isEmpty_cons, if_neg Bool.false_ne_true, if_pos hle], ?_⟩
        intro s hs
        cases hs
        simp only [List.length_append, List.length_cons]
        omega
  · have hlast : ¬ ColonLast line := by
      rintro ⟨name, rfl, -⟩
      exact hmem (by simp)
    refine iff_of_true ⟨none, objectSpan_noColon hmem rest, ?_⟩ fun h => absurd h hlast
    exact fun s hs => nomatch hs

theorem colonLast_nil : ¬ ColonLast [] := by
  rintro ⟨name, h, -⟩
  simp at h

theorem colonsInside_nil : ColonsInside [] := by
  intro pre line post h
  simp at h

theorem colonsInside_cons {lines : List Bytes} : ColonsInside (line :: lines) ↔
    (ColonLast line → line = [58] ∧ lines ≠ []) ∧ ColonsInside lines := by
  refine ⟨fun h => ⟨h [] line lines rfl, fun pre line' post hlines => ?_⟩, ?_⟩
  · exact h (line :: pre) line' post (by rw [hlines]; rfl)
  · rintro ⟨hfirst, hrest⟩ pre line' post h
    cases pre with
    | nil =>
      obtain ⟨rfl, rfl⟩ := List.cons.inj h
      exact hfirst
    | cons d pre => exact hrest pre line' post (List.cons.inj h).2

theorem linesInside_iff : ∀ (fuel : Nat) {x : Bytes}, x.length ≤ fuel →
    (linesInside fuel x ↔ ColonsInside (x.splitOnP isEol)) := by
  intro fuel
  induction fuel with
  | zero =>
    intro x hfuel
    obtain rfl := List.length_eq_zero_iff.1 (Nat.le_zero.1 hfuel)
    exact iff_of_true trivial
      (colonsInside_cons.2 ⟨fun h => absurd h colonLast_nil, colonsInside_nil⟩)
  | succ fuel ih =>
    intro x hfuel
    obtain ⟨line, rest, rfl, hfree, hend⟩ := eol_split x
    rw [linesInside, byteChrs_line hfree hend, lineInside_iff hend, ← List.drop_drop, List.drop_left]
    cases rest with
    | nil =>
      have hdone : linesInside fuel ((([] : Bytes)).drop 1) := by
        cases fuel with
        | zero => trivial
        | succ fuel => exact Or.inl rfl
      rw [List.append_nil, List.splitOnP_eq_singleton hfree, colonsInside_cons]
      refine ⟨?_, fun h => Or.inr ⟨fun hlast => absurd rfl (h.1 hlast).2, hdone⟩⟩
      rintro (rfl | h)
      · exact ⟨fun hlast => absurd hlast colonLast_nil, colonsInside_nil⟩
      · exact ⟨fun hlast => absurd rfl (h.1 hlast).2, colonsInside_nil⟩
    | cons c more =>
      have hlength : more.length ≤ fuel := by
        rw [List.length_append, List.length_cons] at hfuel
        omega
      have hne : line ++ c :: more ≠ [] := List.append_ne_nil_of_right_ne_nil _ (List.cons_ne_nil c more)
      rw [splitOnP_line hfree (hend c rfl), colonsInside_cons, List.drop_one, List.tail_cons,
        ih hlength, or_iff_right hne]
      simp only [ne_eq, reduceCtorEq, not_false_eq_true, List.splitOnP_ne_nil]

theorem readsInside_iff (x : Bytes) : ReadsInside x ↔ ColonsInside (x.splitOnP isEol) :=
  linesInside_iff x.length (Nat.le_refl _)

/-! ## The object and the lookup -/

theorem oneLine_isEol {x : Bytes} (h : OneLine x) : ∀ c ∈ x, isEol c = false := by
  intro c hc
  have hline := h c hc
  simp only [inCharset, Bool.or_eq_false_iff] at hline
  exact hline.2

theorem defineLine_field (l : FieldLine) (obj : JSObject) :
    defineLine obj l.text = some (obj.defineProperty l.name l.value) := by
  have hne : l.name.isEmpty = false := by
    rw [List.isEmpty_eq_false_iff]
    exact l.name_ok.1
  show defineLine obj (l.name ++ 58 :: 32 :: l.value) = _
  rw [defineLine, lineProperty_colon l.name_ok.2.1, hne, cString_of_not_mem l.name_ok.2.2.ne_zero]
  rfl

theorem splitOnP_fields (ls : List FieldLine) : ∀ obj : JSObject,
    ((fieldBlock ls).splitOnP isEol).foldlM defineLine obj =
      some (ls.foldl (fun obj l => obj.defineProperty l.name l.value) obj) := by
  induction ls with
  | nil => exact fun obj => rfl
  | cons l ls ih =>
    intro obj
    have hfree := oneLine_isEol l.text_oneLine
    rw [fieldBlock_cons, FieldLine.line, List.append_assoc]
    obtain heol | heol := l.eol_ok
    · rw [heol]
      show ((l.text ++ 13 :: (([] : Bytes) ++ 10 :: fieldBlock ls)).splitOnP isEol).foldlM _ _ = _
      rw [splitOnP_line hfree (by decide), splitOnP_line (fun c hc => absurd hc List.not_mem_nil) (by decide),
        List.foldlM_cons, defineLine_field]
      exact ih _
    · rw [heol]
      show ((l.text ++ 10 :: fieldBlock ls).splitOnP isEol).foldlM _ _ = _
      rw [splitOnP_line hfree (by decide), List.foldlM_cons, defineLine_field]
      exact ih _

theorem headersObject_fields (hnames : (ls.map FieldLine.name).Nodup) :
    ∃ obj, headersObject (fieldBlock ls) = some obj ∧ ∀ l ∈ ls, obj.get l.name = some l.value := by
  refine ⟨_, (headersObjectLoop_eq _ .new (Nat.le_refl _)).trans (splitOnP_fields ls .new), ?_⟩
  intro l hl
  have hentries : ls.foldl (fun obj l => obj.defineProperty l.name l.value) JSObject.new =
      (ls.map fun l => (l.name, l.value)).foldl (fun obj e => obj.defineProperty e.1 e.2) .new := by
    rw [List.foldl_map]
  have hprops := @foldl_defineProperty (ls.map fun l => (l.name, l.value)) .new (by
    rw [JSObject.new, List.nil_append, List.map_map]
    exact hnames)
  rw [get_eq_some_iff, hentries, hprops]
  exact List.mem_map.2 ⟨l, hl, rfl⟩

theorem leftOf_suffix (hkey : KeyDelimiter keydelim) (value : Bytes) :
    leftOf keydelim value <:+ value := by
  obtain rfl | rfl := hkey
  · rw [leftOf_colon]
    exact List.dropWhile_suffix _
  · exact trimmed_suffix value

theorem leftOf_eq_iff (hkey : KeyDelimiter keydelim) {value : Bytes} (hvalue : OneLine value) :
    leftOf keydelim value ≠ [] ∧ leftOf keydelim value = value ↔ ReadWhole keydelim value := by
  rw [← leftOf_whole_iff hkey hvalue]
  refine and_congr_right fun _ => ⟨fun h => congrArg List.length h, fun h => ?_⟩
  exact (leftOf_suffix hkey value).eq_of_length h

theorem valueSpan_covers {value : Bytes} (hvalue : value <:+ l.text) (pre post : List FieldLine) :
    ((fieldBlock (pre ++ l :: post)).drop (valueSpan pre l value).1).take (valueSpan pre l value).2 =
      value := by
  obtain ⟨front, htext⟩ := hvalue
  have hfront : l.text.length - value.length = front.length := by
    rw [← htext, List.length_append, Nat.add_sub_cancel]
  rw [valueSpan, hfront, fieldBlock_append, fieldBlock_cons, FieldLine.line, ← htext,
    ← List.drop_drop, List.drop_left, List.append_assoc, List.append_assoc, List.drop_left,
    List.take_left]

theorem getlen_found (hb : b.content = fieldBlock (pre ++ l :: post))
    (hpre : ∀ g ∈ pre, g.found name = false) (hfound : l.found name = true)
    (hchars : ∀ c ∈ l.name, inCharset headerChars c = true) (hkey : KeyDelimiter keydelim) :
    headersGetlen b name crlf keydelim =
      if leftOf keydelim l.value = [] then none else some (some (leftOf keydelim l.value)) := by
  rw [headersGetlen_span]
  split
  · next hnil =>
    have hlong := (headersValue_field hkey hchars (fieldBlock post)).1 hnil
    rw [span_found hb hpre hfound, if_neg (Nat.not_le.2 hlong)]
    rfl
  · next hne =>
    have hsuffix := leftOf_suffix hkey l.value
    have htext : leftOf keydelim l.value <:+ l.text :=
      hsuffix.trans ((List.suffix_append _ _).trans (List.suffix_append _ _))
    rw [(span_value_iff hb hpre hfound hchars hkey hsuffix.length_le).2 ⟨hne, rfl⟩, hb]
    simp only [Option.map_some, valueSpan_covers htext]

theorem getlen_absent (hb : b.content = fieldBlock ls) (h : ∀ l ∈ ls, l.found name = false)
    (keydelim : Bytes) : headersGetlen b name crlf keydelim = some none := by
  rw [headersGetlen_span, span_absent hb h]
  rfl

/-! ### Names -/

theorem mem_charRun {lo c : UInt8} {n : Nat} (h : lo.toNat + n ≤ 256) :
    c ∈ (List.range n).map (lo + UInt8.ofNat ·) ↔ lo.toNat ≤ c.toNat ∧ c.toNat < lo.toNat + n := by
  have hadd : ∀ k < n, (lo + UInt8.ofNat k).toNat = lo.toNat + k := by
    intro k hk
    rw [UInt8.toNat_add, UInt8.toNat_ofNat', Nat.add_mod_mod, Nat.mod_eq_of_lt (by omega)]
  rw [List.mem_map]
  refine ⟨?_, ?_⟩
  · rintro ⟨k, hk, rfl⟩
    have hlt := List.mem_range.1 hk
    rw [hadd k hlt]
    omega
  · rintro ⟨hlow, hhigh⟩
    refine ⟨c.toNat - lo.toNat, List.mem_range.2 (by omega), ?_⟩
    apply UInt8.toNat_inj.1
    rw [hadd _ (by omega)]
    omega

/-- The characters of names: letters, digits, `_` and `-`. -/
theorem mem_headerChars_iff {c : UInt8} : c ∈ headerChars ↔
    (65 ≤ c.toNat ∧ c.toNat < 91) ∨ (97 ≤ c.toNat ∧ c.toNat < 123) ∨
      (48 ≤ c.toNat ∧ c.toNat < 58) ∨ c.toNat = 95 ∨ c.toNat = 45 := by
  have hlow : c = 95 ↔ c.toNat = 95 := UInt8.toNat_inj.symm
  have hdash : c = 45 ↔ c.toNat = 45 := UInt8.toNat_inj.symm
  rw [headerChars, List.mem_append, List.mem_append, List.mem_append, mem_charRun (by decide),
    mem_charRun (by decide), mem_charRun (by decide), List.mem_pair, hlow, hdash]
  simp only [or_assoc]
  rfl

theorem headerChars_tolower (c : UInt8) : tolower c ∈ headerChars ↔ c ∈ headerChars := by
  rw [mem_headerChars_iff, mem_headerChars_iff, tolower]
  split
  · next hupper =>
    have hrange : 65 ≤ c.toNat ∧ c.toNat ≤ 90 := by simpa [UInt8.le_iff_toNat_le] using hupper
    have hlower : (c + 32).toNat = c.toNat + 32 := by
      rw [UInt8.toNat_add]
      exact Nat.mod_eq_of_lt (by show c.toNat + 32 < 256; omega)
    rw [hlower]
    omega
  · exact Iff.rfl

theorem mem_headerChars {c : UInt8} (hzero : c ≠ 0) :
    inCharset headerChars c = true ↔ c ∈ headerChars := by
  simp [inCharset, hzero]

theorem spelled_chars {x y : Bytes} (h : strcasecmp x y = true) (hx : ∀ c ∈ x, c ∈ headerChars) :
    ∀ c ∈ y, c ∈ headerChars := by
  intro c hc
  have hmem : tolower c ∈ x.map tolower := by
    rw [strcasecmp_iff.1 h]
    exact List.mem_map_of_mem hc
  obtain ⟨d, hd, heq⟩ := List.mem_map.1 hmem
  rw [← headerChars_tolower, ← heq, headerChars_tolower]
  exact hx d hd

theorem found_name_iff (l f : FieldLine) :
    f.found l.name = strcasecmp (f.name.takeWhile (inCharset headerChars)) l.name := by
  rw [FieldLine.found, cString_of_not_mem l.name_ok.2.2.ne_zero]

theorem strcasecmp_symm {x y : Bytes} (h : strcasecmp x y = true) : strcasecmp y x = true :=
  strcasecmp_iff.2 (strcasecmp_iff.1 h).symm

theorem strcasecmp_trans {x y z : Bytes} (h : strcasecmp x y = true) (h' : strcasecmp y z = true) :
    strcasecmp x z = true :=
  strcasecmp_iff.2 ((strcasecmp_iff.1 h).trans (strcasecmp_iff.1 h'))

theorem name_of_chars (hchars : ∀ c ∈ l.name, c ∈ headerChars) :
    l.name.takeWhile (inCharset headerChars) = l.name := by
  refine List.takeWhile_eq_self_iff.2 fun c hc => ?_
  rw [mem_headerChars]
  · exact hchars c hc
  · exact fun h => l.name_ok.2.2.ne_zero (h ▸ hc)

theorem found_chars {f : FieldLine} (h : f.found l.name = true) : ∀ c ∈ l.name, c ∈ headerChars := by
  rw [found_name_iff] at h
  refine spelled_chars h fun c hc => ?_
  refine (mem_headerChars ?_).1 (List.mem_takeWhile_imp hc)
  rintro rfl
  exact f.name_ok.2.2.ne_zero ((List.takeWhile_prefix _).subset hc)

theorem found_name_iff_named {f : FieldLine} (hf : ∀ c ∈ f.name, c ∈ headerChars) (l : FieldLine) :
    f.found l.name = strcasecmp f.name l.name := by
  rw [found_name_iff, name_of_chars hf]

theorem getlen_case {l' : FieldLine} (hb : b.content = fieldBlock ls)
    (h : strcasecmp l.name l'.name = true) (keydelim : Bytes) :
    headersGetlen b l.name crlf keydelim = headersGetlen b l'.name crlf keydelim := by
  have hfound : FieldLine.found l.name = FieldLine.found l'.name := by
    funext f
    rw [found_name_iff, found_name_iff, Bool.eq_iff_iff]
    exact ⟨fun hf => strcasecmp_trans hf h, fun hf => strcasecmp_trans hf (strcasecmp_symm h)⟩
  rw [headersGetlen_span, headersGetlen_span, headersSpan, headersSpan, headersFind_fields hb,
    headersFind_fields hb, hfound]

/-! ### Agreement -/

/-- The object has the values of the lines, so it agrees with the lookups that give these. -/
theorem objectAgrees_lookups (hb : b.content = fieldBlock ls)
    (hnames : (ls.map FieldLine.name).Nodup) : ObjectAgrees b ls keydelim ↔
      ∀ l ∈ ls, headersGetlen b l.name crlf keydelim = some (some l.value) := by
  obtain ⟨obj, hobj, hget⟩ := headersObject_fields hnames
  unfold ObjectAgrees
  rw [hb, hobj]
  constructor
  · rintro ⟨obj', heq, h⟩ l hl
    cases heq
    obtain ⟨value, hvalue, hlookup⟩ := h l hl
    rw [hget l hl] at hvalue
    cases hvalue
    exact hlookup
  · exact fun h => ⟨obj, rfl, fun l hl => ⟨l.value, hget l hl, h l hl⟩⟩

/-- The object and the lookups agree exactly when every name is made of the characters of names and
every value is read whole, and names that differ only in case have one value. -/
theorem objectAgrees_iff (hb : b.content = fieldBlock ls) (hnames : (ls.map FieldLine.name).Nodup)
    (hkey : KeyDelimiter keydelim) : ObjectAgrees b ls keydelim ↔
      (∀ l ∈ ls, (∀ c ∈ l.name, c ∈ headerChars) ∧ ReadWhole keydelim l.value) ∧
        ∀ l ∈ ls, ∀ l' ∈ ls, strcasecmp l.name l'.name = true → l.value = l'.value := by
  have hspelled : ∀ f : FieldLine, (∀ c ∈ f.name, c ∈ headerChars) →
      ∀ c ∈ f.name, inCharset headerChars c = true :=
    fun f hf => List.takeWhile_eq_self_iff.1 (name_of_chars hf)
  rw [objectAgrees_lookups hb hnames]
  refine ⟨?_, ?_⟩
  · intro h
    have hsame : ∀ l ∈ ls, ∀ l' ∈ ls, strcasecmp l.name l'.name = true → l.value = l'.value := by
      intro l hl l' hl' hcase
      have hlookup := getlen_case hb hcase keydelim
      rw [h l hl, h l' hl'] at hlookup
      exact Option.some.inj (Option.some.inj hlookup)
    have hfirst : ∀ l ∈ ls, ∃ pre f post, ls = pre ++ f :: post ∧
        (∀ g ∈ pre, g.found l.name = false) ∧ f.found l.name = true := by
      intro l hl
      refine (Matching.first_split (FieldLine.found l.name) ls).resolve_left fun hnone => ?_
      have hlookup := h l hl
      rw [getlen_absent hb hnone] at hlookup
      cases hlookup
    have hchars : ∀ l ∈ ls, ∀ c ∈ l.name, c ∈ headerChars := by
      intro l hl
      obtain ⟨pre, f, post, -, -, hfound⟩ := hfirst l hl
      exact found_chars hfound
    refine ⟨fun l hl => ⟨hchars l hl, ?_⟩, hsame⟩
    obtain ⟨pre, f, post, hls, hpre, hfound⟩ := hfirst l hl
    have hf : f ∈ ls := by rw [hls]; simp
    have hvalue : f.value = l.value :=
      hsame f hf l hl ((found_name_iff_named (hchars f hf) l).symm.trans hfound)
    have hlookup := h l hl
    rw [getlen_found (hls ▸ hb) hpre hfound (hspelled f (hchars f hf)) hkey] at hlookup
    split at hlookup
    · cases hlookup
    · next hne =>
      have hleft : leftOf keydelim f.value = l.value := Option.some.inj (Option.some.inj hlookup)
      rw [← hvalue] at hleft ⊢
      exact (leftOf_eq_iff hkey f.value_ok).1 ⟨hne, hleft⟩
  · rintro ⟨hlines, hsame⟩ l hl
    have hself : l.found l.name = true := by
      rw [found_name_iff_named (hlines l hl).1, strcasecmp_iff]
    obtain hnone | ⟨pre, f, post, hls, hpre, hfound⟩ := Matching.first_split (FieldLine.found l.name) ls
    · exact absurd hself (by rw [hnone l hl]; decide)
    · have hf : f ∈ ls := by rw [hls]; simp
      obtain ⟨hfchars, hread⟩ := hlines f hf
      have hvalue : f.value = l.value :=
        hsame f hf l hl ((found_name_iff_named hfchars l).symm.trans hfound)
      obtain ⟨hne, hleft⟩ := (leftOf_eq_iff hkey f.value_ok).2 hread
      rw [getlen_found (hls ▸ hb) hpre hfound (hspelled f hfchars) hkey, if_neg hne, hleft, hvalue]

/-- `headers_object` stays inside its buffer exactly when no line but a colon alone has its first
colon at its end. For a block of lines with different names it agrees with the lookups exactly
when names are made of the characters of names, values are read whole, and names that differ only in
case have one value. What it reads of a line is what it defines. -/
theorem headers_object_iff (x : Bytes) (b : ByteBuffer) (ls : List FieldLine) (keydelim : Bytes) :
    (ReadsInside x ↔ ColonsInside (x.splitOnP isEol)) ∧
    (b.content = fieldBlock ls → (ls.map FieldLine.name).Nodup → KeyDelimiter keydelim →
      (ObjectAgrees b ls keydelim ↔
        (∀ l ∈ ls, (∀ c ∈ l.name, c ∈ headerChars) ∧ ReadWhole keydelim l.value) ∧
          ∀ l ∈ ls, ∀ l' ∈ ls, strcasecmp l.name l'.name = true → l.value = l'.value)) ∧
    ∀ len r obj, objectSpan x len = some r →
      headersObjectLine x len obj = some (r.elim obj fun s => obj.defineProperty
        (cString (x.take (byteChr (x.take len) 58))) ((x.drop s.1).take s.2)) :=
  ⟨readsInside_iff x, objectAgrees_iff, fun _ _ obj h => headersObjectLine_span h obj⟩

/-- `a: v` -/
theorem headers_object_one_line :
    ObjectAgrees ⟨[97, 58, 32, 118, 13, 10], 0, 6, Nat.le_refl 6⟩
      [⟨[97], [118], crlf, by decide, by decide, Or.inl rfl⟩] [58] :=
  ((headers_object_iff [] ⟨[97, 58, 32, 118, 13, 10], 0, 6, Nat.le_refl 6⟩
    [⟨[97], [118], crlf, by decide, by decide, Or.inl rfl⟩] [58]).2.1
    (by decide) (by decide) (Or.inl rfl)).2 (by decide)

/-- `a:` and a line end: one character behind the colon is skipped, and the length of the value is
negative. -/
theorem colon_last_underflows : ¬ ∀ x : Bytes, ReadsInside x := by
  intro h
  obtain hnil | ⟨⟨r, hr, -⟩, -⟩ := h [97, 58, 10]
  · cases hnil
  · cases hr

end QjsNet
