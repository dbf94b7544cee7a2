import QjsNet.HeaderBlock
import QjsNet.JSObject

/- Headers from an object and back (`headers_fromobj`, `headers_object`), and the property
   `headers` of a response and of a request.

   Setting the property of a response writes the lines at the start of the buffer, which
   has grown by more than they need; getting it parses all of the memory. What is behind
   the new lines (`slack`) is then read as well: lines of an earlier object, and whatever new
   memory holds. A name keeps the value of its first line. A request reads what was written, but each assignment is written behind
   the one before. `headers_assigned_iff` says when this shows.

   `headers_fromobj` returns the number of entries, which nobody uses.

   Correspondence (C ↔ Lean):
     `headers_fromobj`, `headers_object`   ↔ `headersFromobj`, `headersObject`
     `minnet_response_set`, `minnet_response_get` (`RESPONSE_HEADERS`)
       ↔ `responseSetHeaders`, `responseGetHeaders`
     `minnet_request_set`, `minnet_headers_iterator` (`HEADERS_ENTRIES`)
       ↔ `requestSetHeaders`, `headersEntries` -/
namespace QjsNet

/-- Each entry lets the buffer grow by its length and 4 bytes. -/
def headersFromobj (heap : Nat → UInt8) (b : ByteBuffer) (obj : JSObject)
    (itemdelim keydelim : Bytes) : Option ByteBuffer :=
  obj.props.foldlM (fun b e =>
    [cString e.1, keydelim, e.2, itemdelim].foldlM bufferWrite
      (bufferGrow heap b ((cString e.1).length + 2 + e.2.length + 2))) b

/-- The property in a line of length `len` at `x`. `none` is a length that has wrapped around, or a
character behind the memory that decides. -/
def headersObjectLine (x : Bytes) (len : Nat) (obj : JSObject) : Option JSObject :=
  let n := byteChr (x.take len) 58
  if n < len then
    let name := x.take n
    let m := if x[n]? = some 58 then n + 1 else n
    if name.isEmpty then some obj
    else
      match x[m]? with
      | none => none
      | some c =>
        let m := if isspace c then m + 1 else m
        if m ≤ len then some (obj.defineProperty (cString name) ((x.drop m).take (len - m)))
        else none
  else some obj

/-- The loop of `headers_object`. Each turn takes at least one byte. -/
def headersObjectLoop : Nat → Bytes → JSObject → Option JSObject
  | 0, _, obj => some obj
  | fuel + 1, x, obj =>
    if x.isEmpty then some obj
    else
      let len := byteChrs x crlf
      (headersObjectLine x len obj).bind (headersObjectLoop fuel (x.drop (len + 1)))

def headersObject (x : Bytes) : Option JSObject := headersObjectLoop x.length x .new

/-- `"\n"` -/
def lineFeed : Bytes := [10]

def responseSetHeaders (heap : Nat → UInt8) (b : ByteBuffer) (obj : JSObject) : Option ByteBuffer :=
  headersFromobj heap (bufferReset b) obj lineFeed keyDelim

def responseGetHeaders (b : ByteBuffer) : Option JSObject := headersObject b.mem

def requestSetHeaders (heap : Nat → UInt8) (b : ByteBuffer) (obj : JSObject) : Option ByteBuffer :=
  headersFromobj heap b obj lineFeed keyDelim

/-- The loop of `minnet_headers_iterator`. Each turn takes at least one byte. -/
def entriesLoop : Nat → Bytes → List (Bytes × Bytes)
  | 0, _ => []
  | fuel + 1, x =>
    if x.isEmpty then []
    else
      let name := x.take (headersNamelen x)
      let x := x.drop (headersValue x [58])
      let value := x.take (headersLength x crlf)
      (name, value) :: entriesLoop fuel (x.drop (headersNext x crlf))

/-- What `entries()` gives. -/
def headersEntries (b : ByteBuffer) : List (Bytes × Bytes) := entriesLoop b.content.length b.content

variable {obj : JSObject} {b : ByteBuffer} {heap : Nat → UInt8} {line rest : Bytes}

/-! ## Parsing memory, line by line -/

def isEol (c : UInt8) : Bool := crlf.contains c

/-- The property that a line defines, if it defines one. There is `none` when nothing stands behind
the colon: then the end of the line is taken for white space in front of the value. -/
def lineProperty (line : Bytes) : Option (Option (Bytes × Bytes)) :=
  match line.dropWhile (· ≠ 58) with
  | [] => some none
  | _ :: value =>
    if (line.takeWhile (· ≠ 58)).isEmpty then some none
    else
      match value with
      | [] => none
      | c :: cs => some (some (cString (line.takeWhile (· ≠ 58)), if isspace c then cs else value))

def defineLine (obj : JSObject) (line : Bytes) : Option JSObject :=
  (lineProperty line).map fun e => e.elim obj fun e => obj.defineProperty e.1 e.2

/-! One line, by its colon. -/

theorem ne_colon {name : Bytes} (h : (58 : UInt8) ∉ name) : ∀ c ∈ name, decide (c ≠ 58) = true :=
  fun _ hc => decide_eq_true fun heq => h (heq ▸ hc)

theorem lineProperty_noColon (h : (58 : UInt8) ∉ line) : lineProperty line = some none := by
  have hdrop : line.dropWhile (· ≠ 58) = [] := List.dropWhile_eq_nil_iff.2 (ne_colon h)
  rw [lineProperty, hdrop]

theorem lineProperty_colon {name : Bytes} (h : (58 : UInt8) ∉ name) (value : Bytes) :
    lineProperty (name ++ 58 :: value) = if name.isEmpty then some none else
      value.head?.map fun c =>
        some (cString name, if isspace c then value.tail else value) := by
  have htake : (name ++ 58 :: value).takeWhile (· ≠ 58) = name :=
    takeWhile_all (ne_colon h) fun c hc => Option.some.inj hc ▸ rfl
  have hdrop : (name ++ 58 :: value).dropWhile (· ≠ 58) = 58 :: value := by
    rw [List.dropWhile_append_of_pos (ne_colon h)]
    rfl
  rw [lineProperty, hdrop, htake]
  cases value <;> rfl

theorem headersObjectLine_noColon (h : (58 : UInt8) ∉ line) (rest : Bytes) (obj : JSObject) :
    headersObjectLine (line ++ rest) line.length obj = some obj := by
  have hn : byteChr line 58 = line.length :=
    congrArg List.length (List.takeWhile_eq_self_iff.2 (ne_colon h))
  simp [headersObjectLine, hn]

theorem headersObjectLine_colon {name : Bytes} (h : (58 : UInt8) ∉ name) (value rest : Bytes)
    (obj : JSObject) :
    headersObjectLine (name ++ 58 :: value ++ rest) (name ++ 58 :: value).length obj =
      if name.isEmpty then some obj else
        (value ++ rest).head?.bind fun c =>
          let m := if isspace c then 1 else 0
          if m ≤ value.length then
            some (obj.defineProperty (cString name)
              (((value ++ rest).drop m).take (value.length - m)))
          else none := by
  have hlength : (name ++ 58 :: value).length = name.length + 1 + value.length := by simp; omega
  have hx : name ++ 58 :: value ++ rest = name ++ 58 :: (value ++ rest) := by simp
  have hn : byteChr ((name ++ 58 :: value ++ rest).take (name.length + 1 + value.length)) 58
      = name.length := by rw [← hlength, List.take_left, byteChr_append_cons h]
  have hcolon : (name ++ 58 :: value ++ rest)[name.length]? = some 58 := by simp
  have hafter : (name ++ 58 :: value ++ rest)[name.length + 1]? = (value ++ rest).head? := by
    rw [hx, List.getElem?_append_right (Nat.le_add_right _ _), Nat.add_sub_cancel_left,
      List.head?_eq_getElem?]
    rfl
  have hname : (name ++ 58 :: value ++ rest).take name.length = name := by rw [hx, List.take_left]
  have hdrop (m : Nat) :
      (name ++ 58 :: value ++ rest).drop (name.length + 1 + m) = (value ++ rest).drop m := by
    rw [hx, Nat.add_assoc, ← List.drop_drop, List.drop_left, Nat.add_comm]
    rfl
  have hleft (m : Nat) : name.length + 1 + value.length - (name.length + 1 + m)
      = value.length - m := Nat.add_sub_add_left ..
  have hlt : name.length < name.length + 1 + value.length := by omega
  unfold headersObjectLine
  simp only [hlength, hn, if_pos hlt, hname, hcolon, if_true, hafter]
  congr 1
  cases (value ++ rest).head? with
  | none => rfl
  | some c =>
    have hm : (if isspace c = true then name.length + 1 + 1 else name.length + 1)
        = name.length + 1 + if isspace c = true then 1 else 0 := by split <;> rfl
    simp only [hm, hdrop, hleft, Nat.add_le_add_iff_left, Option.bind_some]

theorem headersObjectLine_eq (hrest : ∀ c ∈ rest.head?, isspace c = true) (obj : JSObject) :
    headersObjectLine (line ++ rest) line.length obj = defineLine obj line := by
  by_cases hmem : (58 : UInt8) ∈ line
  · obtain ⟨name, value, rfl, hname⟩ := List.eq_append_cons_of_mem hmem
    rw [headersObjectLine_colon hname, defineLine, lineProperty_colon hname]
    by_cases hempty : name.isEmpty
    · simp [hempty]
    · cases value with
      | nil =>
        -- the character behind the colon ends the line, or the memory
        cases hend : rest.head? with
        | none => simp [hempty, hend]
        | some c => simp [hempty, hend, hrest c hend]
      | cons c cs =>
        cases hspace : isspace c <;> simp [hempty, hspace]
  · rw [headersObjectLine_noColon hmem, defineLine, lineProperty_noColon hmem]
    rfl

theorem isEol_isspace {c : UInt8} (h : isEol c = true) : isspace c = true := by
  have hcases : c = 13 ∨ c = 10 := by simpa [isEol, crlf] using h
  rcases hcases with rfl | rfl
  · rfl
  · rfl

theorem eol_split (x : Bytes) : ∃ line rest, x = line ++ rest ∧ (∀ c ∈ line, isEol c = false) ∧
    ∀ c ∈ rest.head?, isEol c = true := by
  refine ⟨x.takeWhile (!isEol ·), x.dropWhile (!isEol ·), List.takeWhile_append_dropWhile.symm, ?_, ?_⟩
  · intro c hc
    simpa using List.mem_takeWhile_imp hc
  · intro c hc
    simpa using head_dropWhile x c hc

theorem byteChrs_line (hfree : ∀ c ∈ line, isEol c = false) (hend : ∀ c ∈ rest.head?, isEol c = true) :
    byteChrs (line ++ rest) crlf = line.length := by
  have hline : ∀ c ∈ line, (!isEol c) = true := fun c hc => by rw [hfree c hc]; rfl
  have hstop : ∀ c ∈ rest.head?, (!isEol c) = false := fun c hc => by rw [hend c hc]; rfl
  exact congrArg List.length (takeWhile_all hline hstop)

theorem splitOnP_line (hfree : ∀ c ∈ line, isEol c = false) {c : UInt8} (hc : isEol c = true)
    (more : Bytes) : (line ++ c :: more).splitOnP isEol = line :: more.splitOnP isEol := by
  rw [List.splitOnP_append_cons _ _ hc, List.splitOnP_eq_singleton hfree, List.singleton_append]

theorem headersObjectLoop_nil (fuel : Nat) (obj : JSObject) :
    headersObjectLoop fuel [] obj = some obj := by
  cases fuel with
  | zero => rfl
  | succ fuel => rfl

theorem headersObjectLoop_line (hfree : ∀ c ∈ line, isEol c = false)
    (hend : ∀ c ∈ rest.head?, isEol c = true) (hne : line ++ rest ≠ []) (fuel : Nat)
    (obj : JSObject) :
    headersObjectLoop (fuel + 1) (line ++ rest) obj
      = (defineLine obj line).bind (headersObjectLoop fuel (rest.drop 1)) := by
  have hlen := byteChrs_line hfree hend
  have hempty : (line ++ rest).isEmpty = false := by simpa using hne
  rw [headersObjectLoop, hempty, if_neg Bool.false_ne_true]
  simp only [hlen]
  rw [headersObjectLine_eq (fun c hc => isEol_isspace (hend c hc)), ← List.drop_drop,
    List.drop_left]

/-- The loop cuts the memory at every carriage return and line feed. -/
theorem headersObjectLoop_eq : ∀ (fuel : Nat) {x : Bytes} (obj : JSObject), x.length ≤ fuel →
    headersObjectLoop fuel x obj = (x.splitOnP isEol).foldlM defineLine obj := by
  intro fuel
  induction fuel with
  | zero =>
    intro x obj hfuel
    obtain rfl := List.length_eq_zero_iff.1 (Nat.le_zero.1 hfuel)
    rfl
  | succ fuel ih =>
    intro x obj hfuel
    obtain ⟨line, rest, rfl, hfree, hend⟩ := eol_split x
    cases rest with
    | nil =>
      rw [List.append_nil, List.splitOnP_eq_singleton hfree]
      by_cases hline : line = []
      · subst hline
        rfl
      · have hstep := headersObjectLoop_line hfree hend (by simpa using hline) fuel obj
        rw [List.append_nil] at hstep
        rw [hstep, List.drop_nil, List.foldlM_cons, funext (headersObjectLoop_nil fuel)]
        rfl
    | cons c more =>
      have hlength : more.length ≤ fuel := by
        rw [List.length_append, List.length_cons] at hfuel
        omega
      rw [headersObjectLoop_line hfree hend (by simp), splitOnP_line hfree (hend c rfl),
        List.foldlM_cons, List.drop_one, List.tail_cons]
      exact congrArg _ (funext fun obj => ih obj hlength)

/-! ## The lines of an object -/

/-- An entry that makes a header: the name of letters, digits, `_` and `-`, the value in one line,
not empty, and not beginning with white space or a colon. -/
structure HeaderEntry (e : Bytes × Bytes) : Prop where
  name : HeaderName e.1
  value : OneLine e.2
  ne : e.2 ≠ []
  head : ∀ c ∈ e.2.head?, isspace c = false ∧ c ≠ 58

def JSObject.lines (obj : JSObject) : Bytes :=
  obj.props.flatMap fun e => headerLine lineFeed e.1 e.2

/-- By how much the buffer grows for the entries. -/
def JSObject.growth (obj : JSObject) : Nat := (obj.props.map fun e => e.1.length + 2 + e.2.length + 2).sum

theorem writeEntries_wrote {itemdelim : Bytes} (hitem : itemdelim.length ≤ 2) (heap : Nat → UInt8)
    (es : List (Bytes × Bytes)) : ∀ {b : ByteBuffer}, (∀ e ∈ es, (0 : UInt8) ∉ e.1) →
    ∃ b', es.foldlM (fun b e => [cString e.1, keyDelim, e.2, itemdelim].foldlM bufferWrite
        (bufferGrow heap b ((cString e.1).length + 2 + e.2.length + 2))) b = some b' ∧
      Wrote (bufferGrow heap b (es.map fun e => e.1.length + 2 + e.2.length + 2).sum) b'
        (es.flatMap fun e => headerLine itemdelim e.1 e.2) := by
  induction es with
  | nil =>
    intro b _
    refine ⟨b, rfl, ?_⟩
    rw [List.map_nil, List.sum_nil, bufferGrow_zero]
    exact .refl b
  | cons e es ih =>
    intro b hes
    obtain ⟨hzero, hes⟩ := List.forall_mem_cons.1 hes
    obtain ⟨b₁, h₁, hwrote₁⟩ := writeLine_wrote heap b e.1 e.2 hitem
    obtain ⟨b', hrest, hwrote⟩ := @ih b₁ hes
    refine ⟨b', ?_, ?_⟩
    · rw [List.foldlM_cons, cString_of_not_mem hzero, h₁]
      exact hrest
    · rw [List.map_cons, List.sum_cons, ← bufferGrow_bufferGrow, List.flatMap_cons]
      exact (hwrote₁.grow heap _).trans hwrote

theorem headersFromobj_wrote {itemdelim : Bytes} (hitem : itemdelim.length ≤ 2) (heap : Nat → UInt8)
    (b : ByteBuffer) (hobj : ∀ e ∈ obj.props, (0 : UInt8) ∉ e.1) :
    ∃ b', headersFromobj heap b obj itemdelim keyDelim = some b' ∧
      Wrote (bufferGrow heap b obj.growth) b'
        (obj.props.flatMap fun e => headerLine itemdelim e.1 e.2) :=
  writeEntries_wrote hitem heap obj.props hobj

theorem HeaderEntry.oneLine {e : Bytes × Bytes} (h : HeaderEntry e) : OneLine (e.1 ++ (keyDelim ++ e.2)) :=
  Header.text_oneLine ⟨e.1, e.2, h.name, h.value⟩

theorem defineLine_entry {e : Bytes × Bytes} (h : HeaderEntry e) (obj : JSObject) :
    defineLine obj (e.1 ++ (keyDelim ++ e.2)) = some (obj.defineProperty e.1 e.2) := by
  have hname : (58 : UInt8) ∉ e.1 := fun hc => absurd (h.name.2 58 hc) (by decide)
  have hne : e.1.isEmpty = false := by simpa using h.name.1
  show defineLine obj (e.1 ++ 58 :: 32 :: e.2) = _
  rw [defineLine, lineProperty_colon hname, hne, cString_of_not_mem (HeaderName.ne_zero h.name)]
  rfl

theorem splitOnP_lines (es : List (Bytes × Bytes)) (hes : ∀ e ∈ es, HeaderEntry e) (rest : Bytes) :
    ∀ obj : JSObject,
    ((es.flatMap (fun e => headerLine lineFeed e.1 e.2) ++ rest).splitOnP isEol).foldlM defineLine obj
      = (rest.splitOnP isEol).foldlM defineLine
        (es.foldl (fun obj e => obj.defineProperty e.1 e.2) obj) := by
  induction es with
  | nil => exact fun obj => rfl
  | cons e es ih =>
    intro obj
    obtain ⟨he, hes⟩ := List.forall_mem_cons.1 hes
    have hfree : ∀ c ∈ e.1 ++ (keyDelim ++ e.2), isEol c = false := by
      intro c hc
      have hline := he.oneLine c hc
      simp only [inCharset, Bool.or_eq_false_iff] at hline
      exact hline.2
    have hline : (e :: es).flatMap (fun e => headerLine lineFeed e.1 e.2) ++ rest
        = (e.1 ++ (keyDelim ++ e.2))
          ++ 10 :: (es.flatMap (fun e => headerLine lineFeed e.1 e.2) ++ rest) := by
      simp [headerLine, lineFeed]
    rw [hline, List.splitOnP_append_cons _ _ rfl, List.splitOnP_eq_singleton hfree,
      List.singleton_append, List.foldlM_cons, defineLine_entry he]
    exact ih hes (obj.defineProperty e.1 e.2)

/-! ## What is behind the lines -/

def propertyOf (line : Bytes) : Option (Bytes × Bytes) := (lineProperty line).join

/-- The properties that memory defines. -/
def propertiesIn (x : Bytes) : List (Bytes × Bytes) := (x.splitOnP isEol).filterMap propertyOf

/-- Memory that is read without a change to the object: no line ends with a colon behind a name, and
every name that a line has is one of the object, whose line comes first. -/
structure Silent (obj : JSObject) (x : Bytes) : Prop where
  readable : ∀ line ∈ x.splitOnP isEol, lineProperty line ≠ none
  known : ∀ e ∈ propertiesIn x, (obj.get e.1).isSome = true

/-- A key keeps its value, and a new one has the first that is defined. -/
theorem get_foldl (key : Bytes) (es : List (Bytes × Bytes)) : ∀ obj : JSObject,
    (es.foldl (fun obj e => obj.defineProperty e.1 e.2) obj).get key
      = (obj.get key).or ((es.find? (·.1 = key)).map Prod.snd) := by
  induction es with
  | nil => exact fun obj => (Option.or_none).symm
  | cons e es ih =>
    intro obj
    rw [List.foldl_cons, ih, get_defineProperty, Option.or_assoc, List.find?_cons]
    by_cases hkey : e.1 = key <;> simp [hkey]

theorem foldlM_defineLine (ls : List Bytes) : ∀ {obj : JSObject},
    (∀ line ∈ ls, lineProperty line ≠ none) →
    ls.foldlM defineLine obj = some
      ((ls.filterMap propertyOf).foldl (fun obj e => obj.defineProperty e.1 e.2) obj) := by
  induction ls with
  | nil => exact fun {obj} _ => rfl
  | cons line ls ih =>
    intro obj h
    obtain ⟨hline, hls⟩ := List.forall_mem_cons.1 h
    obtain ⟨e, he⟩ := Option.ne_none_iff_exists'.1 hline
    rw [List.foldlM_cons, defineLine, he]
    cases e with
    | none =>
      have hnone : propertyOf line = none := by rw [propertyOf, he]; rfl
      rw [List.filterMap_cons_none hnone]
      exact ih hls
    | some e =>
      have hsome : propertyOf line = some e := by rw [propertyOf, he]; rfl
      rw [List.filterMap_cons_some hsome]
      exact ih hls

theorem foldlM_defineLine_none {ls : List Bytes} {obj : JSObject} (hline : line ∈ ls)
    (h : lineProperty line = none) : ls.foldlM defineLine obj = none := by
  induction ls generalizing obj with
  | nil => cases hline
  | cons l ls ih =>
    rw [List.foldlM_cons]
    rcases List.mem_cons.1 hline with rfl | hline
    · rw [defineLine, h]
      rfl
    · cases defineLine obj l with
      | none => rfl
      | some obj' => exact ih hline

/-- Reading more memory leaves the object the same exactly when it is silent. -/
theorem silent_iff (obj : JSObject) (x : Bytes) :
    (∃ obj', (x.splitOnP isEol).foldlM defineLine obj = some obj' ∧ obj'.Same obj) ↔ Silent obj x := by
  by_cases hreadable : ∀ line ∈ x.splitOnP isEol, lineProperty line ≠ none
  · rw [foldlM_defineLine _ hreadable]
    refine ⟨?_, ?_⟩
    · rintro ⟨obj', hobj', hsame⟩
      obtain rfl := Option.some.inj hobj'
      refine ⟨hreadable, ?_⟩
      intro e he
      have hget := same_iff_get.1 hsame e.1
      rw [get_foldl] at hget
      cases hkey : obj.get e.1 with
      | some value => rfl
      | none =>
        rw [hkey, Option.none_or, Option.map_eq_none_iff, List.find?_eq_none] at hget
        exact absurd (decide_eq_true rfl) (hget e he)
    · intro h
      refine ⟨_, rfl, same_iff_get.2 fun key => ?_⟩
      rw [get_foldl]
      cases hkey : obj.get key with
      | some value => rfl
      | none =>
        rw [Option.none_or, Option.map_eq_none_iff, List.find?_eq_none]
        intro e he heq
        have hsome := h.known e he
        rw [of_decide_eq_true heq, hkey] at hsome
        cases hsome
  · refine iff_of_false ?_ fun h => hreadable h.readable
    obtain ⟨line, hline, hnone⟩ : ∃ line ∈ x.splitOnP isEol, lineProperty line = none := by
      simpa using hreadable
    rw [foldlM_defineLine_none hline hnone]
    rintro ⟨obj', hobj', -⟩
    cases hobj'

/-! ## The headers of a response -/

/-- What is in the memory behind the lines of an object that is assigned. -/
def slack (heap : Nat → UInt8) (b : ByteBuffer) (obj : JSObject) : Bytes :=
  (bufferGrow heap b obj.growth).mem.drop obj.lines.length

/-- Getting the headers gives the object. -/
def ReadsBack (b : ByteBuffer) (obj : JSObject) : Prop :=
  ∃ obj', responseGetHeaders b = some obj' ∧ obj'.Same obj

theorem response_reads_iff (heap : Nat → UInt8) (b : ByteBuffer)
    (hobj : ∀ e ∈ obj.props, HeaderEntry e) :
    ∃ b', responseSetHeaders heap b obj = some b' ∧ (ReadsBack b' obj ↔ Silent obj (slack heap b obj)) := by
  obtain ⟨b', hset, hwrote⟩ := @headersFromobj_wrote obj lineFeed (by decide) heap (bufferReset b)
    fun e he => HeaderName.ne_zero (hobj e he).name
  refine ⟨b', hset, ?_⟩
  have hmem : b'.mem = obj.lines ++ slack heap b obj := by
    rw [hwrote.mem, bufferGrow_content]
    show [] ++ obj.lines ++ (bufferGrow heap b obj.growth).mem.drop (0 + obj.lines.length) = _
    rw [List.nil_append, Nat.zero_add]
    rfl
  rw [ReadsBack, responseGetHeaders, headersObject, headersObjectLoop_eq _ _ (Nat.le_refl _), hmem,
    JSObject.lines, splitOnP_lines _ hobj, foldl_defineProperty_new]
  exact silent_iff obj _

theorem responseSetHeaders_all (heap : Nat → UInt8) (objs : List JSObject) : ∀ {b : ByteBuffer},
    (∀ obj ∈ objs, ∀ e ∈ obj.props, HeaderEntry e) →
    ∃ b', objs.foldlM (responseSetHeaders heap) b = some b' := by
  induction objs with
  | nil => exact fun {b} _ => ⟨b, rfl⟩
  | cons obj objs ih =>
    intro b hobjs
    obtain ⟨hobj, hobjs⟩ := List.forall_mem_cons.1 hobjs
    obtain ⟨b₁, hset, -⟩ := response_reads_iff heap b hobj
    obtain ⟨b', hrest⟩ := @ih b₁ hobjs
    exact ⟨b', by rw [List.foldlM_cons, hset]; exact hrest⟩

/-! ## The headers of a request -/

/-- Header lines, each with its end. -/
def linesOf (xs : List (Bytes × Bytes × Bytes)) : Bytes := xs.flatMap fun x => headerLine x.1 x.2.1 x.2.2

theorem linesOf_noEnd {xs : List (Bytes × Bytes × Bytes)}
    (hxs : ∀ x ∈ xs, LineEnd x.1 ∧ HeaderEntry x.2) : NoEnd (linesOf xs) := by
  cases xs with
  | nil => exact fun c hc => nomatch hc
  | cons x xs =>
    have hname := (hxs x List.mem_cons_self).2.name
    intro c hc
    obtain ⟨d, ds, hd⟩ := List.exists_cons_of_ne_nil hname.1
    rw [linesOf, List.flatMap_cons, headerLine, hd] at hc
    obtain rfl := Option.some.inj hc
    exact headerChars_noEnd d (hname.2 d (hd ▸ List.mem_cons_self))

/-- Where the iterator finds the value. -/
theorem headersValue_entry {e : Bytes × Bytes} (h : HeaderEntry e) (rest : Bytes) :
    headersValue (e.1 ++ (keyDelim ++ (e.2 ++ rest))) [58] = e.1.length + 2 := by
  obtain ⟨c, cs, hvalue⟩ := List.exists_cons_of_ne_nil h.ne
  have hspace : isspace c = false := (h.head c (by rw [hvalue]; rfl)).1
  have hcolon : scanCharsetnskip (keyDelim ++ (e.2 ++ rest)) [58] = 1 := rfl
  have hblank : scanWhitenskip ((keyDelim ++ (e.2 ++ rest)).drop 1) = 1 := by
    show (List.takeWhile isspace (32 :: (e.2 ++ rest))).length = 1
    rw [hvalue, List.takeWhile_cons_of_pos (by decide), List.cons_append,
      List.takeWhile_cons_of_neg (by rw [hspace]; exact Bool.false_ne_true)]
    rfl
  simp only [headersValue, headersNamelen_append h.name, List.drop_left, hcolon]
  rw [← List.drop_drop, List.drop_left, hblank]

theorem entriesLoop_line {e : Bytes × Bytes} {itemdelim rest : Bytes} (h : HeaderEntry e)
    (hend : LineEnd itemdelim) (hrest : NoEnd rest) (fuel : Nat) :
    entriesLoop (fuel + 1) (headerLine itemdelim e.1 e.2 ++ rest) = e :: entriesLoop fuel rest := by
  have hline : headerLine itemdelim e.1 e.2 ++ rest
      = e.1 ++ (keyDelim ++ (e.2 ++ (itemdelim ++ rest))) := by simp [headerLine]
  have hne : (e.1 ++ (keyDelim ++ (e.2 ++ (itemdelim ++ rest)))).isEmpty = false := by
    simp [h.name.1]
  have hvalue : (e.1 ++ (keyDelim ++ (e.2 ++ (itemdelim ++ rest)))).drop (e.1.length + 2)
      = e.2 ++ (itemdelim ++ rest) := by
    rw [← List.drop_drop, List.drop_left]
    rfl
  have hvaluelen : headersLength (e.2 ++ (itemdelim ++ rest)) crlf = e.2.length := by
    have hfree : ∀ c ∈ e.2, (!inCharset crlf c) = true := by
      intro c hc
      rw [h.value c hc]
      rfl
    rw [headersLength, scanNoncharsetnskip,
      takeWhile_all hfree (hend.head (by decide) (by decide) _)]
  have hnext := headersNext_append h.value hend.inCharset hend.ne hrest
  have hbehind : (e.2 ++ (itemdelim ++ rest)).drop (e.2.length + itemdelim.length) = rest := by
    rw [← List.drop_drop, List.drop_left, List.drop_left]
  rw [hline, entriesLoop, hne, if_neg Bool.false_ne_true]
  simp only [headersNamelen_append h.name, List.take_left, headersValue_entry h, hvalue, hvaluelen,
    hnext, hbehind]

theorem entriesLoop_linesOf (xs : List (Bytes × Bytes × Bytes)) : ∀ {fuel : Nat},
    (∀ x ∈ xs, LineEnd x.1 ∧ HeaderEntry x.2) → (linesOf xs).length ≤ fuel →
    entriesLoop fuel (linesOf xs) = xs.map Prod.snd := by
  induction xs with
  | nil =>
    intro fuel _ _
    cases fuel with
    | zero => rfl
    | succ fuel => rfl
  | cons x xs ih =>
    intro fuel hxs hfuel
    obtain ⟨⟨hend, hentry⟩, hxs⟩ := List.forall_mem_cons.1 hxs
    have hlines : linesOf (x :: xs) = headerLine x.1 x.2.1 x.2.2 ++ linesOf xs := rfl
    rw [hlines, List.length_append, headerLine_length] at hfuel
    cases fuel with
    | zero => omega
    | succ fuel =>
      rw [hlines, entriesLoop_line hentry hend (linesOf_noEnd hxs), ih hxs (by omega)]
      rfl

theorem lineEnd_lineFeed : LineEnd lineFeed := ⟨by decide, by decide⟩

theorem headersEntries_linesOf {xs : List (Bytes × Bytes × Bytes)} (hb : b.content = linesOf xs)
    (hxs : ∀ x ∈ xs, LineEnd x.1 ∧ HeaderEntry x.2) : headersEntries b = xs.map Prod.snd := by
  rw [headersEntries, hb, entriesLoop_linesOf xs hxs (Nat.le_refl _)]

theorem linesOf_eq_nil_iff {xs : List (Bytes × Bytes × Bytes)} : linesOf xs = [] ↔ xs = [] := by
  cases xs with
  | nil => exact iff_of_true rfl rfl
  | cons x xs => simp [linesOf, headerLine, keyDelim]

theorem requestSetHeaders_linesOf (heap : Nat → UInt8) {xs : List (Bytes × Bytes × Bytes)}
    (hb : b.content = linesOf xs) (hobj : ∀ e ∈ obj.props, HeaderEntry e) :
    ∃ b', requestSetHeaders heap b obj = some b' ∧
      b'.content = linesOf (xs ++ obj.props.map (lineFeed, ·)) := by
  obtain ⟨b', hset, hwrote⟩ := @headersFromobj_wrote obj lineFeed (by decide) heap b
    fun e he => HeaderName.ne_zero (hobj e he).name
  refine ⟨b', hset, ?_⟩
  rw [hwrote.content, bufferGrow_content, hb, linesOf, linesOf, List.flatMap_append, List.flatMap_map]

theorem linesOf_append {xs : List (Bytes × Bytes × Bytes)}
    (hxs : ∀ x ∈ xs, LineEnd x.1 ∧ HeaderEntry x.2) (hobj : ∀ e ∈ obj.props, HeaderEntry e) :
    ∀ x ∈ xs ++ obj.props.map (lineFeed, ·), LineEnd x.1 ∧ HeaderEntry x.2 := by
  intro x hx
  rcases List.mem_append.1 hx with hx | hx
  · exact hxs x hx
  · obtain ⟨e, he, rfl⟩ := List.mem_map.1 hx
    exact ⟨lineEnd_lineFeed, hobj e he⟩

theorem requestSetHeaders_all (heap : Nat → UInt8) (objs : List JSObject) :
    ∀ {b : ByteBuffer} {xs : List (Bytes × Bytes × Bytes)},
    (∀ obj ∈ objs, ∀ e ∈ obj.props, HeaderEntry e) → b.content = linesOf xs →
    (∀ x ∈ xs, LineEnd x.1 ∧ HeaderEntry x.2) →
    ∃ b' ys, objs.foldlM (requestSetHeaders heap) b = some b' ∧ b'.content = linesOf ys ∧
      ∀ x ∈ ys, LineEnd x.1 ∧ HeaderEntry x.2 := by
  induction objs with
  | nil => exact fun {b xs} _ hb hxs => ⟨b, xs, rfl, hb, hxs⟩
  | cons obj objs ih =>
    intro b xs hobjs hb hxs
    obtain ⟨hobj, hobjs⟩ := List.forall_mem_cons.1 hobjs
    obtain ⟨b₁, hset, hcontent⟩ := requestSetHeaders_linesOf heap hb hobj
    obtain ⟨b', ys, hrest, hys, hall⟩ := ih hobjs hcontent (linesOf_append hxs hobj)
    exact ⟨b', ys, by rw [List.foldlM_cons, hset]; exact hrest, hys, hall⟩

/-- **Assignments in a row.** A response reads back the last object exactly when the memory behind
its lines is silent, and a request exactly when it had no headers before. -/
theorem headers_assigned_iff (heap : Nat → UInt8) (b : ByteBuffer) (objs : List JSObject) (obj : JSObject)
    (hobjs : ∀ obj ∈ objs, ∀ e ∈ obj.props, HeaderEntry e) (hobj : ∀ e ∈ obj.props, HeaderEntry e) :
    (∃ b₁ b₂, objs.foldlM (responseSetHeaders heap) b = some b₁ ∧
      responseSetHeaders heap b₁ obj = some b₂ ∧ (ReadsBack b₂ obj ↔ Silent obj (slack heap b₁ obj))) ∧
    ∀ xs, b.content = linesOf xs → (∀ x ∈ xs, LineEnd x.1 ∧ HeaderEntry x.2) →
      ∃ b₁ b₂, objs.foldlM (requestSetHeaders heap) b = some b₁ ∧
        requestSetHeaders heap b₁ obj = some b₂ ∧ (headersEntries b₂ = obj.props ↔ b₁.content = []) := by
  refine ⟨?_, ?_⟩
  · obtain ⟨b₁, hrun⟩ := responseSetHeaders_all heap objs hobjs
    obtain ⟨b₂, hset, hreads⟩ := response_reads_iff heap b₁ hobj
    exact ⟨b₁, b₂, hrun, hset, hreads⟩
  · intro xs hb hxs
    obtain ⟨b₁, ys, hrun, hys, hall⟩ := requestSetHeaders_all heap objs hobjs hb hxs
    obtain ⟨b₂, hset, hcontent⟩ := requestSetHeaders_linesOf heap hys hobj
    refine ⟨b₁, b₂, hrun, hset, ?_⟩
    have hentries : (obj.props.map (lineFeed, ·)).map Prod.snd = obj.props := by
      rw [List.map_map]
      exact List.map_id' obj.props
    rw [headersEntries_linesOf hcontent (linesOf_append hall hobj), List.map_append, hentries,
      List.append_left_eq_self, List.map_eq_nil_iff, hys, linesOf_eq_nil_iff]

/-- `{ a: '1' }` -/
def oneHeader : JSObject := ⟨[([97], [49])], by decide⟩

/-- `{ a: '1', b: '2' }` -/
def abHeaders : JSObject := ⟨[([97], [49]), ([98], [50])], by decide⟩

/-- A single assignment to a new response, whose memory holds zeros, and to a new request. -/
theorem one_header_assigned :
    (∃ b₁ b₂, some ByteBuffer.new = some b₁ ∧ responseSetHeaders (fun _ => 0) b₁ oneHeader = some b₂ ∧
      ReadsBack b₂ oneHeader) ∧
    ∃ b₁ b₂, some ByteBuffer.new = some b₁ ∧ requestSetHeaders (fun _ => 0) b₁ oneHeader = some b₂ ∧
      headersEntries b₂ = [([97], [49])] := by
  have hentry : ∀ e ∈ oneHeader.props, HeaderEntry e := by
    intro e he
    obtain rfl := List.mem_singleton.1 he
    exact ⟨by decide, by decide, by decide, by decide⟩
  obtain ⟨hresponse, hrequest⟩ :=
    headers_assigned_iff (fun _ => 0) .new [] oneHeader (fun obj h => nomatch h) hentry
  obtain ⟨b₁, b₂, hb, hset, hreads⟩ := hresponse
  obtain ⟨c₁, c₂, hc, hset', hreads'⟩ := hrequest [] rfl (fun x h => nomatch h)
  refine ⟨⟨b₁, b₂, hb, hset, hreads.2 ?_⟩, c₁, c₂, hc, hset', hreads'.2 ?_⟩
  · obtain rfl := Option.some.inj hb
    have hslack : (slack (fun _ => 0) .new oneHeader).splitOnP isEol = [[0]] := by
      simp [slack, oneHeader, JSObject.growth, JSObject.lines, bufferGrow, freshBytes, ByteBuffer.new,
        headerLine, keyDelim, lineFeed, List.splitOnP_cons_eq_if_modifyHead, isEol, crlf]
    refine ⟨?_, ?_⟩
    · rw [hslack]
      decide
    · rw [propertiesIn, hslack]
      decide
  · obtain rfl := Option.some.inj hc
    rfl

/-- After a longer object a shorter one: a response still has a line of the first one, and a request
has all of them. -/
theorem headers_left_over :
    ((responseSetHeaders (fun _ => 0) .new abHeaders).bind fun b =>
        (responseSetHeaders (fun _ => 0) b oneHeader).bind responseGetHeaders) = some abHeaders ∧
      ¬ abHeaders.Same oneHeader ∧
      ((requestSetHeaders (fun _ => 0) .new abHeaders).bind fun b =>
        (requestSetHeaders (fun _ => 0) b oneHeader).map headersEntries)
          = some [([97], [49]), ([98], [50]), ([97], [49])] := by
  refine ⟨by decide, ?_, by decide⟩
  intro h
  exact absurd ((h ([98], [50])).1 (by decide)) (by decide)

end QjsNet
