import QjsNet.HeaderMap

/- Appending to a header (`headers_appendb` and the method `append`).

   A header that is not there is set. For one that is, the number of its line is taken
   for a position in bytes, and the text is inserted behind the line around it
   (`headersAppendb_content`): what follows a line then begins with a comma, which is no
   line of a header. So appending does what it should exactly when there is nothing to
   append to (`append_laws_iff`). -/
namespace QjsNet

variable {name value : Bytes} {hs pre post : List Header} {t : Header} {b : ByteBuffer}
  {heap : Nat → UInt8}

/-! ## What is inserted -/

theorem moveRest_take {mem : Bytes} {y : Nat} (hy : y ≤ mem.length) (write : Nat) (value : Bytes) :
    (moveRest mem y write value).take y = mem.take y := by
  unfold moveRest
  split
  · rw [overwrite, List.append_assoc, List.take_append_of_le_length
      (by rw [List.length_take]; omega), List.take_take, Nat.min_eq_left (by omega)]
  · rfl

theorem moveRest_drop {mem : Bytes} {y write : Nat} (hwrite : write + (value.length + 2) ≤ mem.length)
    (hy : y ≤ write) (hvalue : value ≠ []) : ∃ tail,
      (moveRest mem y write value).drop (y + 2 + value.length) = (mem.take write).drop y ++ tail := by
  unfold moveRest
  split
  · rw [overwrite, List.append_assoc]
    exact ⟨_, List.drop_left' (by rw [List.length_take]; omega)⟩
  · next hcond =>
    have hlength : value.length ≠ 0 := fun h => hvalue (List.length_eq_zero_iff.1 h)
    have hrest : (mem.take write).drop y = [] := by
      refine List.drop_eq_nil_iff.2 ?_
      simp only [hlength, ne_eq, not_false_eq_true, decide_true, Bool.and_true, decide_eq_true_eq] at hcond
      rw [List.length_take]
      omega
    exact ⟨_, by rw [hrest]; rfl⟩

theorem insertValue_take {mem : Bytes} {y write : Nat} (hy : y ≤ write)
    (hwrite : write + (value.length + 2) ≤ mem.length) (hvalue : value ≠ []) :
    (insertValue mem y write value).take (write + (value.length + 2))
      = mem.take y ++ (([44, 32] ++ value) ++ (mem.take write).drop y) := by
  obtain ⟨tail, hdrop⟩ := moveRest_drop hwrite hy hvalue
  have hle : y ≤ (moveRest mem y write value).length :=
    Nat.le_trans (by omega) (le_moveRest_length mem y write value)
  have hlength : ([44, 32] ++ value : Bytes).length = 2 + value.length := by
    rw [List.length_append]
    rfl
  have hinsert : insertValue mem y write value
      = (mem.take y ++ (([44, 32] ++ value) ++ (mem.take write).drop y)) ++ tail := by
    rw [insertValue]
    refine (overwrite_overwrite hle [44, 32] value).trans ?_
    rw [overwrite, moveRest_take (by omega), hlength, ← Nat.add_assoc, hdrop]
    simp only [List.append_assoc]
  rw [hinsert]
  refine List.take_left' ?_
  rw [List.length_append, List.length_append, hlength, List.length_drop, List.length_take,
    List.length_take]
  omega

theorem headersAppendb_content (heap : Nat → UInt8) (hb : b.content = block crlf (pre ++ t :: post))
    (hname : (0 : UInt8) ∉ name) (ht : t.named name = true) (hpre : ∀ g ∈ pre, g.named name = false)
    (hvalue : value ≠ []) : ∃ b' before after, pre ++ t :: post = before ++ after ∧
      headersAppendb heap b name value crlf = (b', some pre.length) ∧
      b'.content = block crlf before ++ (([44, 32] ++ value) ++ block crlf after) := by
  have hgrown : (bufferGrow heap b (value.length + 2)).content = block crlf (pre ++ t :: post) :=
    (bufferGrow_content heap b _).trans hb
  have hfind : headersFindb (bufferGrow heap b (value.length + 2)) name crlf = some pre.length := by
    rw [headersFindb_block lineEnd_crlf hgrown hname, Matching.findIdx?_first hpre ht]
  obtain ⟨before, h, after, off, hsplit, hpos, hoff, -, -, hnext⟩ := line_around pre t post
  have hy : pre.length + ((h.line crlf).drop off).length = (block crlf (before ++ [h])).length := by
    rw [block_append, List.length_append, List.length_drop, hpos]
    simp only [block, List.flatMap_cons, List.flatMap_nil, List.append_nil]
    omega
  have hsplit' : pre ++ t :: post = (before ++ [h]) ++ after := by
    rw [hsplit, List.append_assoc]
    rfl
  have hblock : (bufferGrow heap b (value.length + 2)).mem.take b.write
      = block crlf (before ++ [h]) ++ block crlf after := by
    rw [← block_append, ← hsplit']
    exact hgrown
  have hle : (block crlf (before ++ [h])).length ≤ b.write := by
    rw [← length_content, hb, hsplit', block_append crlf (before ++ [h]), List.length_append]
    exact Nat.le_add_right _ _
  refine ⟨(headersAppendb heap b name value crlf).1, before ++ [h], after, hsplit', ?_, ?_⟩
  · rw [headersAppendb]
    simp only [hfind]
  · rw [headersAppendb]
    simp only [hfind, endAt_content]
    rw [hgrown, hnext, hy, insertValue_take hle (bufferGrow_room heap b _) hvalue, hblock,
      List.drop_left, ← Nat.min_eq_left hle, ← List.take_take, hblock, List.take_left]

/-- No line of a header begins with a comma. -/
theorem not_block (rest : Bytes) (hs' : List Header) : block crlf hs ++ 44 :: rest ≠ block crlf hs' := by
  intro heq
  have hlines := congrArg (Lines.pieces isNewline) heq
  rw [pieces_block_append, pieces_block] at hlines
  obtain ⟨front, back, -, -, hback⟩ := List.map_eq_append_iff.1 hlines.symm
  have hrest : block crlf back = 44 :: rest := by
    rw [← @Lines.pieces_flatten _ isNewline (44 :: rest), ← hback]
    rfl
  have hhead := block_head crlf back 44 (by rw [hrest]; rfl)
  exact absurd hhead (by decide)

/-! ## What a lookup returns -/

theorem lineAt_oneLine : ∀ (fuel : Nat) {x x' : Bytes} {index l : Nat},
    lineAt crlf fuel x index = some (x', l) → OneLine (x'.take l) := by
  intro fuel
  induction fuel with
  | zero => exact fun h => nomatch h
  | succ fuel ih =>
    intro x x' index l h
    unfold lineAt at h
    split at h
    · cases h
    · cases index with
      | zero =>
        obtain ⟨rfl, rfl⟩ := Prod.mk.inj (Option.some.inj h)
        have htext := List.prefix_iff_eq_take.1 ((List.takeWhile_prefix (!inCharset crlf ·)).trans
          (List.take_prefix (headersNext x crlf) x))
        intro c hc
        rw [headersLength, scanNoncharsetnskip, ← htext] at hc
        simpa using List.mem_takeWhile_imp hc
      | succ index => exact ih h

/-- A lookup returns nothing that ends a line. -/
theorem headersGetlen_oneLine {v : Bytes} (h : headersGetlen b name crlf keyDelim = some (some v)) :
    OneLine v := by
  unfold headersGetlen at h
  split at h
  · cases h
  · obtain ⟨line, hline, hvalue⟩ := Option.bind_eq_some_iff.1 h
    have honeline := lineAt_oneLine _ hline
    unfold valueIn at hvalue
    simp only at hvalue
    split at hvalue
    · obtain rfl := Option.some.inj (Option.some.inj hvalue)
      intro c hc
      rw [← List.drop_take] at hc
      exact honeline c (List.mem_of_mem_drop hc)
    · cases hvalue

/-! ## The laws of append -/

/-- What appending should do: the value is added to the header's or becomes the header's, other
headers are as before, and the lines are well-formed. -/
structure AppendLaws (heap : Nat → UInt8) (b : ByteBuffer) (name value : Bytes) (b' : ByteBuffer) :
    Prop where
  appended : headersAppend heap b name value crlf = some b'
  value : ∀ old, headersGetlen b name crlf keyDelim = some old →
    headersGetlen b' name crlf keyDelim = some (some (old.elim value (· ++ ([44, 32] ++ value))))
  others : ∀ other, (0 : UInt8) ∉ other → strcasecmp other name = false →
    headersGetlen b' other crlf keyDelim = headersGetlen b other crlf keyDelim
  lines : ∃ hs', (∀ h ∈ hs', PlainValue h.value) ∧ b'.content = block crlf hs'

theorem unskipped_plain (hne : value ≠ []) (h : Unskipped value) : PlainValue value := by
  refine ⟨hne, ?_⟩
  intro c hc
  obtain ⟨hkey, hspace⟩ := h c hc
  refine ⟨?_, ?_, ?_⟩
  · rintro rfl
    exact absurd hspace (by decide)
  · rintro rfl
    exact absurd hspace (by decide)
  · rintro rfl
    exact absurd hkey (by decide)

theorem append_present (hb : b.content = block crlf hs) (hname : HeaderName name) (hvalue : value ≠ [])
    (hfind : hs.findIdx? (Header.named name) ≠ none) (b' : ByteBuffer) :
    ¬ AppendLaws heap b name value b' := by
  intro hlaws
  obtain ⟨i, hidx⟩ := Option.ne_none_iff_exists'.1 hfind
  obtain ⟨pre, t, post, rfl, -, ht, hpre⟩ := Matching.findIdx?_split hidx
  obtain ⟨b'', before, after, -, happend, hcontent⟩ :=
    headersAppendb_content heap hb hname.ne_zero ht hpre hvalue
  have hsome := hlaws.appended
  rw [headersAppend, happend] at hsome
  obtain ⟨hs', -, hblock⟩ := hlaws.lines
  rw [← Option.some.inj hsome, hcontent] at hblock
  exact not_block _ hs' hblock

theorem headersAppend_absent (heap : Nat → UInt8) (hb : b.content = block crlf hs)
    (hname : HeaderName name) (hline : OneLine value)
    (hfind : hs.findIdx? (Header.named name) = none) :
    ∃ b', headersAppend heap b name value crlf = some b' ∧
      b'.content = block crlf (without name hs ++ [⟨name, value, hname, hline⟩]) := by
  have hgrown : (bufferGrow heap b (value.length + 2)).content = block crlf hs :=
    (bufferGrow_content heap b _).trans hb
  have hnone := (headersFindb_block lineEnd_crlf hgrown hname.ne_zero).trans hfind
  have hunset : (headersUnsetb (bufferGrow heap b (value.length + 2)) name crlf).1.content
      = block crlf (without name hs) := by
    rw [headersUnsetb_none hnone, without_none hfind, hgrown]
  have hset : headersAppend heap b name value crlf
      = headersSet heap (bufferGrow heap b (value.length + 2)) name value crlf := by
    rw [headersAppend, headersAppendb]
    simp only [hnone]
  rw [hset]
  exact headersSet_block heap hgrown hunset hname hline

theorem lookup_absent (hb : b.content = block crlf hs) (hname : HeaderName name)
    (hfind : hs.findIdx? (Header.named name) = none) :
    headersGetlen b name crlf keyDelim = some none := by
  rw [headersGetlen, headersFind, cString_of_not_mem hname.ne_zero,
    headersFindb_block lineEnd_crlf hb hname.ne_zero, hfind]

/-- **When the laws hold.** -/
theorem append_laws_iff (heap : Nat → UInt8) (hb : b.content = block crlf hs)
    (hplain : ∀ h ∈ hs, PlainValue h.value) (hname : HeaderName name) (hne : value ≠ []) :
    (∃ b', AppendLaws heap b name value b') ↔
      (∀ h ∈ hs, h.named name = false) ∧ OneLine value ∧ Unskipped value := by
  rw [← List.findIdx?_eq_none_iff]
  refine ⟨?_, ?_⟩
  · intro hexists
    obtain ⟨b', hlaws⟩ := hexists
    have hidx : hs.findIdx? (Header.named name) = none := by
      by_contra hfind
      exact append_present hb hname hne hfind b' hlaws
    have hlookup := hlaws.value none (lookup_absent hb hname hidx)
    have hline : OneLine value := headersGetlen_oneLine hlookup
    obtain ⟨b'', hset, hcontent⟩ := headersAppend_absent heap hb hname hline hidx
    obtain rfl : b' = b'' := Option.some.inj (hlaws.appended.symm.trans hset)
    have hself := lookup_set_self hname hline hcontent (strcasecmp_iff.2 rfl)
    exact ⟨hidx, hline, ((Header.found_iff _).1 (hself.symm.trans hlookup)).2⟩
  · intro h
    obtain ⟨hidx, hline, hskip⟩ := h
    obtain ⟨b', hset, hcontent⟩ := headersAppend_absent heap hb hname hline hidx
    refine ⟨b', hset, ?_, ?_, ?_⟩
    · intro old hold
      obtain rfl : none = old := Option.some.inj ((lookup_absent hb hname hidx).symm.trans hold)
      exact (lookup_set_self hname hline hcontent (strcasecmp_iff.2 rfl)).trans
        ((Header.found_iff ⟨name, value, hname, hline⟩).2 ⟨hne, hskip⟩)
    · intro other hzero hother
      exact lookup_set_other hname hline hb hcontent hzero hother
    · refine ⟨_, ?_, hcontent⟩
      intro g hg
      rw [without_none hidx] at hg
      rcases List.mem_append.1 hg with hg | hg
      · exact hplain g hg
      · obtain rfl := List.mem_singleton.1 hg
        exact unskipped_plain hne hskip

/-- A third header for two others. -/
theorem append_third_header :
    ∃ b', AppendLaws (fun _ => 0) twoHeadersBuffer [67] [51] b' :=
  (append_laws_iff (fun _ => 0) twoHeadersBuffer_content (by decide) (by decide) (by decide)).2
    ⟨by decide, by decide, by decide⟩

/-- Appending `3` to `A` inserts `, 3` in front of the line of `B`. -/
theorem append_first_header :
    (headersAppend (fun _ => 0) twoHeadersBuffer [65] [51] crlf).map ByteBuffer.content
        = some [65, 58, 32, 49, 13, 10, 44, 32, 51, 66, 58, 32, 50, 13, 10] ∧
      ¬ ∃ b', AppendLaws (fun _ => 0) twoHeadersBuffer [65] [51] b' := by
  refine ⟨by decide, ?_⟩
  intro hexists
  obtain ⟨b', hlaws⟩ := hexists
  exact append_present twoHeadersBuffer_content (by decide) (by decide) (by decide) b' hlaws

end QjsNet
