import QjsNet.Url

/- The path of a URL and what is read and written in it (`url.c`, `minnet-url.c`).

   The pathname, the query and the hash are parts of one string. `start_from` finds a mark
   and steps over what is behind a backslash; at the end of the path it steps over the
   terminating zero. `url_set_query_len` looks for the first question mark, escaped or not.

   A call reads what it may not when the path is missing, or behind its terminating zero
   (`PathFault`). In the byte strings 63 is the question mark, 35 the hash and 92 the
   backslash. Memory does not run out.

   Correspondence (C ↔ Lean):
     `start_from`, `url_query`, `url_search`, `url_hash`
       ↔ `startFrom`, `urlQuery`, `urlSearch`, `urlHash`
     `url_set_path_len`, `url_set_query_len` ↔ `urlSetPathLen`, `urlSetQueryLen`
     `minnet_url_get` of the pathname, `minnet_url_set` of the query with null
       ↔ `urlPathname`, `urlClearQuery` -/
namespace QjsNet

inductive PathFault where
  | absent
  | overrun
  deriving DecidableEq, Repr

/-- From the first `ch` that is not escaped, or the empty rest of the path. -/
def startFrom (ch : UInt8) : Bytes → Except PathFault Bytes
  | [] => .ok []
  | [c] => if c = 92 then .error .overrun else if c = ch then .ok [c] else .ok []
  | c :: d :: p =>
    if c = 92 then startFrom ch p else if c = ch then .ok (c :: d :: p) else startFrom ch (d :: p)

/-- What is behind the question mark `p` points to, if it does. -/
def behindMark (p : Bytes) : Option Bytes := if p.head? = some 63 then some p.tail else none

def urlQuery (url : URL) : Except PathFault (Option Bytes) :=
  match url.path with
  | none => .error .absent
  | some path => (startFrom 63 path).map behindMark

def urlSearch (url : URL) : Except PathFault (Option Bytes) :=
  match url.path with
  | none => .ok none
  | some path => (startFrom 63 path).map fun s => some (s.take (byteChr s 35))

def urlHash (url : URL) : Except PathFault (Option Bytes) :=
  match url.path with
  | none => .ok none
  | some path => (startFrom 35 path).map some

def urlPathname (url : URL) : Bytes :=
  url.path.elim [] fun path => path.take (byteChrs path [63, 35])

/-- `has_query_b` -/
def hasQueryB (str : Bytes) : Bool := byteChr str 63 < str.length

/-- The path with the old query behind it; then the result is still `FALSE`. -/
def storePath (url : URL) (path : Bytes) : Option Bytes → URL × Bool
  | some oldquery => ({ url with path := some (cString (path ++ 63 :: oldquery)) }, false)
  | none => ({ url with path := some (cString path) }, true)

def urlSetPathLen (url : URL) (path : Bytes) : Except PathFault (URL × Bool) :=
  if hasQueryB path then .ok ({ url with path := some (cString path) }, true)
  else (urlQuery url).map (storePath url path)

def urlSetQueryLen (url : URL) (query : Bytes) : URL × Bool :=
  let path := url.path.getD []
  ({ url with path := some (path.take (byteChr path 63) ++ 63 :: cString query) }, true)

def urlClearQuery (url : URL) : Except PathFault URL :=
  match url.path with
  | none => .error .absent
  | some path => .ok { url with path := some (path.take (byteChr path 63)) }

/-! ## What the accessors promise -/

/-- The call stores a new path and says so; the pathname is `p`, and the query what it was. -/
def SetsPath (url : URL) (p : Bytes) : Prop :=
  ∃ url', urlSetPathLen url p = .ok (url', true) ∧ urlPathname url' = p ∧ urlQuery url' = urlQuery url

def SetsQuery (url : URL) (q : Bytes) : Prop :=
  ∃ url', urlSetQueryLen url q = (url', true) ∧ urlQuery url' = .ok (some q) ∧
    urlPathname url' = urlPathname url

/-- No accessor reads through a path that is missing. The others cannot fail. -/
structure NoAbsentRead (url : URL) : Prop where
  query : urlQuery url ≠ .error .absent
  search : urlSearch url ≠ .error .absent
  hash : urlHash url ≠ .error .absent
  setPath : ∀ p, urlSetPathLen url p ≠ .error .absent
  clearQuery : urlClearQuery url ≠ .error .absent

/-- A string in which every backslash has a character behind it, and every `ch` a backslash in
front of it. -/
inductive Unmarked (ch : UInt8) : Bytes → Prop where
  | nil : Unmarked ch []
  | escaped {p : Bytes} (c : UInt8) : Unmarked ch p → Unmarked ch (92 :: c :: p)
  | char {c : UInt8} {p : Bytes} : c ≠ 92 → c ≠ ch → Unmarked ch p → Unmarked ch (c :: p)

/-! ## Scanning for a mark -/

variable {ch : UInt8} {url : URL} {p q r : Bytes}

theorem startFrom_escaped (ch c : UInt8) (p : Bytes) : startFrom ch (92 :: c :: p) = startFrom ch p := by
  rw [startFrom, if_pos rfl]

theorem startFrom_mark (hch : ch ≠ 92) (p : Bytes) : startFrom ch (ch :: p) = .ok (ch :: p) := by
  cases p <;> rw [startFrom, if_neg hch, if_pos rfl]

theorem startFrom_char {c : UInt8} (hescape : c ≠ 92) (hmark : c ≠ ch) (p : Bytes) :
    startFrom ch (c :: p) = startFrom ch p := by
  cases p <;> simp only [startFrom, if_neg hescape, if_neg hmark]

/-- What a scan does: it runs over the end, or it stops behind an unmarked part, at the mark or at
the end. -/
theorem startFrom_cases (ch : UInt8) : ∀ p : Bytes, startFrom ch p = .error .overrun ∨
    ∃ front rest, p = front ++ rest ∧ Unmarked ch front ∧ (rest = [] ∨ rest.head? = some ch) ∧
      startFrom ch p = .ok rest
  | [] => Or.inr ⟨[], [], rfl, .nil, Or.inl rfl, rfl⟩
  | [c] => by
    by_cases hescape : c = 92
    · exact Or.inl (by rw [startFrom, if_pos hescape])
    · by_cases hmark : c = ch
      · refine Or.inr ⟨[], [c], rfl, .nil, Or.inr (congrArg some hmark), ?_⟩
        rw [startFrom, if_neg hescape, if_pos hmark]
      · refine Or.inr ⟨[c], [], rfl, .char hescape hmark .nil, Or.inl rfl, ?_⟩
        rw [startFrom, if_neg hescape, if_neg hmark]
  | c :: d :: p => by
    by_cases hescape : c = 92
    · rw [hescape, startFrom_escaped]
      obtain herror | ⟨front, rest, hp, hfront, hrest, hscan⟩ := startFrom_cases ch p
      · exact Or.inl herror
      · exact Or.inr ⟨92 :: d :: front, rest, by rw [hp]; rfl, .escaped d hfront, hrest, hscan⟩
    · by_cases hmark : c = ch
      · refine Or.inr ⟨[], c :: d :: p, rfl, .nil, Or.inr (congrArg some hmark), ?_⟩
        rw [startFrom, if_neg hescape, if_pos hmark]
      · rw [startFrom_char hescape hmark]
        obtain herror | ⟨front, rest, hp, hfront, hrest, hscan⟩ := startFrom_cases ch (d :: p)
        · exact Or.inl herror
        · exact Or.inr ⟨c :: front, rest, by rw [hp]; rfl, .char hescape hmark hfront, hrest, hscan⟩

theorem startFrom_ok (h : startFrom ch p = .ok r) :
    ∃ front, p = front ++ r ∧ Unmarked ch front ∧ (r = [] ∨ r.head? = some ch) := by
  obtain herror | ⟨front, rest, hp, hfront, hrest, hscan⟩ := startFrom_cases ch p
  · rw [herror] at h
    cases h
  · rw [hscan] at h
    cases h
    exact ⟨front, hp, hfront, hrest⟩

theorem startFrom_error {f : PathFault} (h : startFrom ch p = .error f) : f = .overrun := by
  obtain herror | ⟨front, rest, hp, hfront, hrest, hscan⟩ := startFrom_cases ch p
  · rw [herror] at h
    exact (Except.error.inj h).symm
  · rw [hscan] at h
    cases h

theorem Unmarked.startFrom_append (h : Unmarked ch p) (q : Bytes) :
    startFrom ch (p ++ q) = startFrom ch q := by
  induction h with
  | nil => rfl
  | escaped c _ ih => rw [List.cons_append, List.cons_append, startFrom_escaped, ih]
  | char hescape hmark _ ih => rw [List.cons_append, startFrom_char hescape hmark, ih]

theorem startFrom_nil_iff : startFrom ch p = .ok [] ↔ Unmarked ch p := by
  refine ⟨fun h => ?_, fun h => ?_⟩
  · obtain ⟨front, hp, hfront, -⟩ := startFrom_ok h
    rw [hp, List.append_nil]
    exact hfront
  · have hscan := h.startFrom_append []
    rwa [List.append_nil] at hscan

/-- Without the mark only a backslash at the end is left to escape what comes behind it. -/
theorem unmarked_or_cut : ∀ {p : Bytes}, ch ∉ p →
    Unmarked ch p ∨ ∃ front, p = front ++ [92] ∧ Unmarked ch front
  | [], _ => Or.inl .nil
  | [c], h => by
    by_cases hescape : c = 92
    · exact Or.inr ⟨[], congrArg (fun c => [c]) hescape, .nil⟩
    · exact Or.inl (.char hescape (fun hmark => h (by rw [hmark]; exact List.mem_singleton_self ch)) .nil)
  | c :: d :: p, h => by
    by_cases hescape : c = 92
    · obtain hp | ⟨front, hcut, hfront⟩ :=
        unmarked_or_cut fun hmem => h (List.mem_cons_of_mem c (List.mem_cons_of_mem d hmem))
      · exact Or.inl (hescape ▸ .escaped d hp)
      · exact Or.inr ⟨92 :: d :: front, by rw [hescape, hcut]; rfl, .escaped d hfront⟩
    · have hmark : c ≠ ch := fun hmark => h (by rw [hmark]; exact List.mem_cons_self)
      obtain hp | ⟨front, hcut, hfront⟩ := unmarked_or_cut fun hmem => h (List.mem_cons_of_mem c hmem)
      · exact Or.inl (.char hescape hmark hp)
      · exact Or.inr ⟨c :: front, by rw [hcut]; rfl, .char hescape hmark hfront⟩

/-! ## Queries -/

theorem behindMark_eq_some (h : behindMark r = some q) : r.length = q.length + 1 := by
  unfold behindMark at h
  split at h
  · next hhead =>
    obtain ⟨cs, hcs⟩ := List.head?_eq_some_iff.1 hhead
    rw [← Option.some.inj h, hcs]
    rfl
  · cases h

theorem cString_length_le (s : Bytes) : (cString s).length ≤ s.length :=
  (List.takeWhile_prefix _).length_le

theorem cString_eq_self_iff {s : Bytes} : cString s = s ↔ (0 : UInt8) ∉ s := by
  refine ⟨?_, cString_of_not_mem⟩
  intro h hmem
  have hzero := List.takeWhile_eq_self_iff.1 h 0 hmem
  exact absurd hzero (by decide)

theorem take_byteChr (x : Bytes) (c : UInt8) : x.take (byteChr x c) = x.takeWhile (· ≠ c) :=
  (List.prefix_iff_eq_take.1 (List.takeWhile_prefix _)).symm

theorem take_byteChrs (x needle : Bytes) :
    x.take (byteChrs x needle) = x.takeWhile (!needle.contains ·) :=
  (List.prefix_iff_eq_take.1 (List.takeWhile_prefix _)).symm

theorem not_mem_byteChr (x : Bytes) (c : UInt8) : c ∉ x.take (byteChr x c) := by
  intro hmem
  rw [take_byteChr] at hmem
  have hne := List.mem_takeWhile_imp hmem
  exact absurd hne (by simp)

/-- The query behind a first part without a question mark. -/
theorem query_behind_iff (hp : (63 : UInt8) ∉ p) :
    (startFrom 63 (p ++ 63 :: cString q)).map behindMark = .ok (some q) ↔
      (0 : UInt8) ∉ q ∧ Unmarked 63 p := by
  refine ⟨?_, ?_⟩
  · intro h
    obtain hun | ⟨front, rfl, hfront⟩ := unmarked_or_cut hp
    · rw [hun.startFrom_append, startFrom_mark (by decide)] at h
      have hquery : some (cString q) = some q := Except.ok.inj h
      exact ⟨cString_eq_self_iff.1 (Option.some.inj hquery), hun⟩
    · -- the question mark is escaped, and what is found is a part of the query
      rw [List.append_assoc, hfront.startFrom_append, List.singleton_append, startFrom_escaped] at h
      cases hscan : startFrom 63 (cString q) with
      | error f =>
        rw [hscan] at h
        cases h
      | ok r =>
        rw [hscan] at h
        have hlen := behindMark_eq_some (Except.ok.inj h)
        obtain ⟨front', hq, -⟩ := startFrom_ok hscan
        have hle := cString_length_le q
        rw [hq, List.length_append] at hle
        omega
  · rintro ⟨hzero, hun⟩
    rw [hun.startFrom_append, cString_of_not_mem hzero, startFrom_mark (by decide)]
    rfl

/-- A character of the pathname. -/
def pathChar (c : UInt8) : Bool := !([63, 35] : Bytes).contains c

theorem pathname_front (x y : Bytes) :
    (x.take (byteChr x 63) ++ 63 :: y).takeWhile pathChar = x.takeWhile pathChar := by
  have hrest : ∀ c ∈ (x.dropWhile (· ≠ 63)).head?, pathChar c = false := by
    intro c hc
    have hmark : decide (c ≠ 63) = false := head_dropWhile x c hc
    rw [of_not_not (of_decide_eq_false hmark)]
    decide
  calc (x.take (byteChr x 63) ++ 63 :: y).takeWhile pathChar
      = (x.takeWhile (· ≠ 63)).takeWhile pathChar := by
        rw [take_byteChr]
        exact takeWhile_append_stop (fun c hc => by cases hc; decide) _
    _ = (x.takeWhile (· ≠ 63) ++ x.dropWhile (· ≠ 63)).takeWhile pathChar :=
        (takeWhile_append_stop hrest _).symm
    _ = x.takeWhile pathChar := by rw [List.takeWhile_append_dropWhile]

theorem urlPathname_eq (url : URL) : urlPathname url = (url.path.getD []).takeWhile pathChar := by
  unfold urlPathname
  cases url.path with
  | none => rfl
  | some path => exact take_byteChrs path [63, 35]

/-- The query is set exactly when it has no zero byte, and no escape is cut off in front of it. -/
theorem setsQuery_iff : SetsQuery url q ↔
    (0 : UInt8) ∉ q ∧ Unmarked 63 ((url.path.getD []).takeWhile (· ≠ 63)) := by
  rw [← take_byteChr, ← query_behind_iff (not_mem_byteChr _ _)]
  refine ⟨?_, fun hquery => ⟨_, rfl, hquery, ?_⟩⟩
  · rintro ⟨url', hset, hquery, -⟩
    cases hset
    exact hquery
  · rw [urlPathname_eq, urlPathname_eq]
    exact pathname_front _ _

/-! ## Pathnames -/

theorem hasQueryB_false (hquery : (63 : UInt8) ∉ p) : hasQueryB p = false := by
  rw [hasQueryB, byteChr_of_not_mem hquery, decide_eq_false_iff_not]
  exact Nat.lt_irrefl _

/-- A string without marks and backslashes. -/
theorem Unmarked.of_not_mem (hmark : ch ∉ p) (hescape : (92 : UInt8) ∉ p) : Unmarked ch p := by
  induction p with
  | nil => exact .nil
  | cons c p ih =>
    refine .char ?_ ?_ (ih (fun h => hmark (.tail c h)) fun h => hescape (.tail c h))
    · rintro rfl
      exact hescape (.head p)
    · rintro rfl
      exact hmark (.head p)

theorem urlQuery_path {path : Bytes} (h : url.path = some path) :
    urlQuery url = (startFrom 63 path).map behindMark := by
  rw [urlQuery, h]

theorem urlQuery_none_iff :
    urlQuery url = .ok none ↔ ∃ path, url.path = some path ∧ Unmarked 63 path := by
  refine ⟨?_, ?_⟩
  · intro h
    cases hurl : url.path with
    | none =>
      rw [urlQuery, hurl] at h
      cases h
    | some path =>
      rw [urlQuery_path hurl] at h
      refine ⟨path, rfl, startFrom_nil_iff.1 ?_⟩
      cases hscan : startFrom 63 path with
      | error f =>
        rw [hscan] at h
        cases h
      | ok r =>
        rw [hscan] at h
        have hbehind : behindMark r = none := Except.ok.inj h
        obtain ⟨front, -, -, rfl | hhead⟩ := startFrom_ok hscan
        · rfl
        · rw [behindMark, if_pos hhead] at hbehind
          cases hbehind
  · rintro ⟨path, hurl, hun⟩
    rw [urlQuery_path hurl, startFrom_nil_iff.2 hun]
    rfl

/-- The pathname is set exactly in a path without a query, when it has no zero byte. -/
theorem setsPath_iff (hquery : (63 : UInt8) ∉ p) (hhash : (35 : UInt8) ∉ p)
    (hescape : (92 : UInt8) ∉ p) :
    SetsPath url p ↔ (∃ path, url.path = some path ∧ Unmarked 63 path) ∧ (0 : UInt8) ∉ p := by
  have hall : p.takeWhile pathChar = p := by
    rw [List.takeWhile_eq_self_iff]
    intro c hc
    have hc63 : c ≠ 63 := fun h => hquery (h ▸ hc)
    have hc35 : c ≠ 35 := fun h => hhash (h ▸ hc)
    simp [pathChar, hc63, hc35]
  unfold SetsPath urlSetPathLen
  rw [hasQueryB_false hquery, if_neg Bool.false_ne_true, ← urlQuery_none_iff]
  refine ⟨?_, ?_⟩
  · rintro ⟨url', hset, hpath, -⟩
    cases hold : urlQuery url with
    | error f =>
      rw [hold] at hset
      cases hset
    | ok oldquery =>
      rw [hold] at hset
      cases oldquery with
      | some q => cases hset
      | none =>
        cases hset
        rw [urlPathname_eq] at hpath
        have hle := (List.takeWhile_prefix pathChar (l := cString p)).length_le
        refine ⟨rfl, cString_eq_self_iff.1 ?_⟩
        refine (List.takeWhile_prefix _).eq_of_length_le ?_
        calc p.length = ((cString p).takeWhile pathChar).length := congrArg List.length hpath.symm
          _ ≤ (cString p).length := hle
  · rintro ⟨hold, hzero⟩
    rw [hold]
    refine ⟨_, rfl, ?_, ?_⟩
    · rw [urlPathname_eq, Option.getD_some, cString_of_not_mem hzero, hall]
    · rw [urlQuery_none_iff]
      exact ⟨_, rfl, by rw [cString_of_not_mem hzero]; exact .of_not_mem hquery hescape⟩

/-! ## Missing paths -/

theorem startFrom_present {α : Type} (f : Bytes → α) (p : Bytes) :
    (startFrom ch p).map f ≠ .error .absent := by
  intro h
  cases hscan : startFrom ch p with
  | ok r =>
    rw [hscan] at h
    cases h
  | error e =>
    rw [hscan, startFrom_error hscan] at h
    cases h

theorem noAbsentRead_iff : NoAbsentRead url ↔ ∃ path, url.path = some path := by
  refine ⟨fun h => ?_, ?_⟩
  · cases hurl : url.path with
    | none => exact absurd (by rw [urlQuery, hurl]) h.query
    | some path => exact ⟨path, rfl⟩
  · rintro ⟨path, hurl⟩
    have hquery : urlQuery url ≠ .error .absent := by
      rw [urlQuery_path hurl]
      exact startFrom_present behindMark path
    refine ⟨hquery, ?_, ?_, ?_, ?_⟩
    · rw [urlSearch, hurl]
      exact startFrom_present _ path
    · rw [urlHash, hurl]
      exact startFrom_present some path
    · intro p
      unfold urlSetPathLen
      split
      · exact fun h => nomatch h
      · cases hold : urlQuery url with
        | ok oldquery => exact fun h => nomatch h
        | error f =>
          rw [hold] at hquery
          intro h
          cases h
          exact hquery rfl
    · rw [urlClearQuery, hurl]
      exact fun h => nomatch h

/-! ## Reading back -/

/-- Setting the pathname is right exactly in a path without a query and without a cut escape,
setting the query exactly behind a pathname without a cut escape, both without zero bytes; and
nothing reads through a missing path exactly when the path is there. -/
theorem url_lens_iff (url : URL) :
    (∀ p : Bytes, (63 : UInt8) ∉ p → (35 : UInt8) ∉ p → (92 : UInt8) ∉ p →
      (SetsPath url p ↔ (∃ path, url.path = some path ∧ Unmarked 63 path) ∧ (0 : UInt8) ∉ p)) ∧
    (∀ q : Bytes, (35 : UInt8) ∉ q →
      (SetsQuery url q ↔
        (0 : UInt8) ∉ q ∧ Unmarked 63 ((url.path.getD []).takeWhile (· ≠ 63)))) ∧
    (NoAbsentRead url ↔ ∃ path, url.path = some path) :=
  ⟨fun _ => setsPath_iff, fun _ _ => setsQuery_iff, noAbsentRead_iff⟩

/-- `/a?x`, set to `/b`: the path becomes `/b?x`, and the result is `FALSE`. -/
theorem path_set_denied :
    ¬ ∀ p : Bytes, (63 : UInt8) ∉ p → (35 : UInt8) ∉ p → (92 : UInt8) ∉ p →
      SetsPath ⟨none, none, some [47, 97, 63, 120], -1⟩ p := by
  intro h
  obtain ⟨url', hset, -⟩ := h [47, 98] (by decide) (by decide) (by decide)
  have hresult : urlSetPathLen ⟨none, none, some [47, 97, 63, 120], -1⟩ [47, 98] =
      .ok (⟨none, none, some [47, 98, 63, 120], -1⟩, false) := rfl
  rw [hresult] at hset
  cases hset

end QjsNet
